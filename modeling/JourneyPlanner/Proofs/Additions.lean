import Mathlib.Data.List.Forall2
import JourneyPlanner.Proofs.EntryOrder
import JourneyPlanner.Proofs.Timetable
/-!
# What a network says of the additions it was built from

A draft is filled by additions, and those that are refused leave it as it is. `accepted` lists the
others in order, and `NetworkDraft.reflects_addAll` tells what the finished network holds of them: the
stops, routes and transfers just as they came, each stop's routes in ascending order and once each, the
notices whose two trips stand in a timetable, and marks at the positions that these notices board.
-/
namespace JourneyPlanner

/-- One addition to a draft. -/
inductive Addition where
  | stop (name : String)
  | route (id : RouteId) (mode : Mode) (pattern : StopPattern) (trips : List Schedule) (services : List Headway)
      (services_isOfTrip : ∀ s ∈ services, s.IsOfTrip)
  | transfer (source : Stop) (walk : Transfer)
  | notice (notice : ConnectionNotice)

namespace Addition

/-- The stop that is added. -/
def stopName? : Addition → Option String
  | .stop name => some name
  | _ => none

/-- The route that is added, under the number it gets. -/
def timetable? : Addition → Option (RouteIndex → Except DataError Route)
  | .route id mode pattern trips services _ => some fun i => Route.ofTimetable i id mode pattern trips services
  | _ => none

/-- The trips and the services of the route that is added, as they are given. -/
def runs? : Addition → Option (List Schedule × List Headway)
  | .route _ _ _ trips services _ => some (trips, services)
  | _ => none

/-- The transfer that is added, if it leaves `stop`. -/
def transferFrom? (stop : Stop) : Addition → Option Transfer
  | .transfer source walk => if source = stop then some walk else none
  | _ => none

/-- The notice that is added. -/
def notice? : Addition → Option ConnectionNotice
  | .notice n => some n
  | _ => none

/-- Whether an addition suits a network with some stops: it refers to these only, and a route has trips or
services, all of them with a time for each stop. -/
def Suits (stops : Nat) : Addition → Prop
  | .stop _ => True
  | .route _ _ pattern trips services _ =>
    (∀ s ∈ pattern.stops, s < stops) ∧ (trips ≠ [] ∨ services ≠ []) ∧
      (∀ t ∈ trips, t.size = pattern.size) ∧ ∀ s ∈ services, s.template.size = pattern.size
  | .transfer source walk => source < stops ∧ walk.target < stops
  | .notice _ => True

end Addition

/-! ## Where trips stand -/

/-- The trips of a route in the order in which their identifiers count: the scheduled trips, and then the
trips of headway services. -/
def Route.places (i : RouteIndex) (route : Route) : List (TripId × TripPlace) :=
  route.trips.toList.mapIdx (fun k trip => (trip.id, .scheduled i k)) ++
    route.services.toList.map fun service => (service.template.id, .headway)

namespace Network

/-- The trips of all routes. -/
def places (net : Network) : List (TripId × TripPlace) :=
  (net.routes.toList.mapIdx fun i route => route.places i).flatten

/-- The identifier first occurs as a scheduled trip, and that trip calls at the position. -/
structure Calls (net : Network) (id : TripId) (p : Position) (call : TripCall) : Prop where
  first : net.places.find? (·.1 = id) = some (id, .scheduled call.route call.trip)
  position_eq : call.position = p
  inside : ∃ route, net.routes[call.route]? = some route ∧ p < route.pattern.size

/-- The entry is about the two calls that a notice names, and has its terms. -/
structure Resolves (net : Network) (notice : ConnectionNotice) (entry : ConnectionEntry) : Prop where
  alight : net.Calls notice.alightTrip notice.alightPosition entry.alight
  board : net.Calls notice.boardTrip notice.boardPosition entry.board
  terms_eq : entry.terms = notice.terms

end Network

namespace NetworkDraft

/-! ## Additions one after another -/

/-- Makes an addition. -/
def add? (draft : NetworkDraft) : Addition → Except DataError NetworkDraft
  | .stop name => .ok (draft.addStop name)
  | .route id mode pattern trips services _ => draft.addRoute id mode pattern trips services
  | .transfer source walk => draft.addTransfer source walk
  | .notice n => .ok (draft.addNotice n)

/-- Makes some additions, of which the refused ones leave the draft as it is. -/
def addAll (draft : NetworkDraft) : List Addition → NetworkDraft
  | [] => draft
  | a :: additions =>
    match draft.add? a with
    | .ok draft' => draft'.addAll additions
    | .error _ => draft.addAll additions

/-- The additions that are not refused. -/
def accepted (draft : NetworkDraft) : List Addition → List Addition
  | [] => []
  | a :: additions =>
    match draft.add? a with
    | .ok draft' => a :: draft'.accepted additions
    | .error _ => draft.accepted additions

/-- What a draft holds after it has accepted some additions. -/
structure Records (draft : NetworkDraft) (done : List Addition) : Prop where
  made : draft.Made
  stopNames_eq : draft.stopNames.toList = done.filterMap Addition.stopName?
  routes_eq : draft.routes.toList.map .ok = (done.filterMap Addition.timetable?).mapIdx fun i make => make i
  transfers_eq : ∀ s, draft.transfers.getD s [] = done.filterMap (Addition.transferFrom? s)
  notices_eq : draft.notices = done.filterMap Addition.notice?

/-- What the finished network holds after a draft has accepted some additions. -/
structure Reflects (draft : NetworkDraft) (done : List Addition) : Prop where
  stopNames_eq : draft.finish.stopNames.toList = done.filterMap Addition.stopName?
  /-- Without its marks each route is the one that was added under its number. -/
  routes_eq : (draft.finish.routes.toList.map fun route => .ok { route with termsAt := [] }) =
    (done.filterMap Addition.timetable?).mapIdx fun i make => make i
  /-- The trips and services of each route are put in order, and their numbers are their places in it. -/
  sorts : List.Forall₂ (fun route given => route.Sorts given.1 given.2) draft.finish.routes.toList
    (done.filterMap Addition.runs?)
  routesThrough_ascending : ∀ s, (draft.finish.routesThrough s).Pairwise (· < ·)
  mem_routesThrough : ∀ s i, i ∈ draft.finish.routesThrough s ↔
    ∃ route, draft.finish.routes[i]? = some route ∧ s ∈ route.pattern.stops
  transfersFrom_eq : ∀ s, draft.finish.transfersFrom s = done.filterMap (Addition.transferFrom? s)
  /-- Just the notices are kept whose trips both stand in a timetable. -/
  resolve?_eq_some : ∀ notice entry, draft.resolve? notice = some entry ↔ draft.finish.Resolves notice entry
  kept_eq : draft.kept = (done.filterMap Addition.notice?).filterMap draft.resolve?
  connections_eq : draft.finish.connections = .ofEntries draft.kept
  hasTermsAt_iff : ∀ i route, draft.finish.routes[i]? = some route → ∀ p,
    route.hasTermsAt p = true ↔ ∃ e ∈ draft.kept, e.board.route = i ∧ e.board.position = p

/-! ## Drafts record their additions -/

variable {draft draft' : NetworkDraft} {done : List Addition} {a : Addition}

theorem exists_bind_eq_ok {α β : Type} {x : Except DataError α} {f : α → Except DataError β} :
    (∃ b, x >>= f = .ok b) ↔ ∃ a, x = .ok a ∧ ∃ b, f a = .ok b := by
  constructor
  · rintro ⟨b, hb⟩
    obtain ⟨a, hx, hf⟩ := of_bind_eq_ok hb
    exact ⟨a, hx, b, hf⟩
  · rintro ⟨a, rfl, b, hf⟩
    exact ⟨b, hf⟩

theorem checkStop_eq_ok {s : Stop} : draft.checkStop s = .ok () ↔ s < draft.stopNames.size := by
  unfold checkStop
  split <;> simp_all

theorem forM_checkStop_eq_ok {stops : Array Stop} :
    stops.forM draft.checkStop = .ok () ↔ ∀ s ∈ stops, s < draft.stopNames.size := by
  simp only [Array.forM, ← Array.foldlM_toList, ← Array.mem_toList_iff]
  constructor
  · exact foldlM_checkStop_ok
  · intro h
    generalize stops.toList = l at h
    induction l with
    | nil => rfl
    | cons s l ih =>
      rw [List.foldlM_cons, checkStop_eq_ok.2 (h s List.mem_cons_self), ok_bind]
      exact ih fun x hx => h x (List.mem_cons_of_mem s hx)

/-- A timetable makes a route when there is something in it and all its trips fit the pattern. -/
theorem ofTimetable_eq_ok {i : RouteIndex} {id : RouteId} {mode : Mode} {pattern : StopPattern}
    {trips : List Schedule} {services : List Headway} :
    (∃ route, Route.ofTimetable i id mode pattern trips services = .ok route) ↔ (trips ≠ [] ∨ services ≠ []) ∧
      (∀ t ∈ trips, t.size = pattern.size) ∧ ∀ s ∈ services, s.template.size = pattern.size := by
  unfold Route.ofTimetable
  split
  · rename_i hempty
    simp_all
  · rename_i hempty
    split
    · rename_i n hn
      have hne := List.find?_some hn
      have hmem := List.mem_of_find?_eq_some hn
      simp at hne hmem
      grind
    · rename_i hnone
      simp [Route.wrongSize?] at hnone
      simp at hempty
      simp
      grind

/-- An addition is made just when it suits the draft. -/
theorem add?_eq_ok : (∃ draft', draft.add? a = .ok draft') ↔ a.Suits draft.stopNames.size := by
  cases a with
  | stop name => exact iff_of_true ⟨_, rfl⟩ trivial
  | route id mode pattern trips services hservices =>
    have hstops : (∃ u, pattern.stops.forM draft.checkStop = .ok u) ↔ ∀ s ∈ pattern.stops, s < draft.stopNames.size :=
      Unique.exists_iff.trans forM_checkStop_eq_ok
    have hpure : ∀ route, ∃ draft', (pure { draft with routes := draft.routes.push route } :
        Except DataError NetworkDraft) = .ok draft' := fun route => ⟨_, rfl⟩
    simp only [add?, addRoute, exists_bind_eq_ok, Addition.Suits, hpure, and_true, ofTimetable_eq_ok,
      exists_and_right, hstops]
  | transfer source walk =>
    have hstop : ∀ s, (∃ u, draft.checkStop s = .ok u) ↔ s < draft.stopNames.size := fun s =>
      Unique.exists_iff.trans checkStop_eq_ok
    have hpure : ∃ draft', (pure { draft with transfers := draft.transfers.modify source (· ++ [walk]) } :
        Except DataError NetworkDraft) = .ok draft' := ⟨_, rfl⟩
    simp only [add?, addTransfer, exists_bind_eq_ok, Addition.Suits, hpure, and_true, exists_and_right, hstop]
  | notice n => exact iff_of_true ⟨_, rfl⟩ trivial

theorem records_empty : Records .empty [] where
  made := .empty
  stopNames_eq := rfl
  routes_eq := rfl
  transfers_eq s := by simp [empty]
  notices_eq := rfl

/-- What an accepted route is. -/
theorem addRoute_eq {id : RouteId} {mode : Mode} {pattern : StopPattern} {trips : List Schedule}
    {services : List Headway} (h : draft.addRoute id mode pattern trips services = .ok draft') :
    ∃ route, Route.ofTimetable draft.routes.size id mode pattern trips services = .ok route ∧
      draft' = { draft with routes := draft.routes.push route } := by
  obtain ⟨_, -, h⟩ := of_bind_eq_ok h
  obtain ⟨route, hroute, h⟩ := of_bind_eq_ok h
  cases h
  exact ⟨route, hroute, rfl⟩

/-- An addition of another kind adds nothing. -/
theorem filterMap_concat_of_eq_none {α : Type} {f : Addition → Option α} (hnone : f a = none) (done : List Addition) :
    (done ++ [a]).filterMap f = done.filterMap f := by
  rw [List.filterMap_append, List.filterMap_cons_none hnone, List.filterMap_nil, List.append_nil]

theorem filterMap_concat_of_eq_some {α : Type} {f : Addition → Option α} {x : α} (hsome : f a = some x)
    (done : List Addition) : (done ++ [a]).filterMap f = done.filterMap f ++ [x] := by
  rw [List.filterMap_append, List.filterMap_cons_some hsome, List.filterMap_nil]

/-- A draft records one more addition. -/
theorem Records.add (h : Records draft done) (hadd : draft.add? a = .ok draft') : Records draft' (done ++ [a]) := by
  cases a with
  | stop name =>
    cases hadd
    refine ⟨h.made.addStop name, ?_, ?_, ?_, ?_⟩
    · rw [filterMap_concat_of_eq_some (f := Addition.stopName?) rfl, ← h.stopNames_eq]
      exact Array.toList_push ..
    · rw [filterMap_concat_of_eq_none rfl]
      exact h.routes_eq
    · intro s
      rw [filterMap_concat_of_eq_none rfl, ← h.transfers_eq s, addStop]
      simp only [Array.getD_eq_getD_getElem?, Array.getElem?_push]
      -- The place for the new stop's transfers is empty, as it was when there was no such place.
      split
      · rename_i heq
        simp [heq]
      · rfl
    · rw [filterMap_concat_of_eq_none rfl]
      exact h.notices_eq
  | route id mode pattern trips services hservices =>
    obtain ⟨route, hroute, rfl⟩ := addRoute_eq hadd
    have hsize : (done.filterMap Addition.timetable?).length = draft.routes.size := by
      simpa using (congrArg List.length h.routes_eq).symm
    refine ⟨h.made.addRoute hservices hadd, ?_, ?_, fun s => ?_, ?_⟩
    · rw [filterMap_concat_of_eq_none rfl]
      exact h.stopNames_eq
    · rw [filterMap_concat_of_eq_some (f := Addition.timetable?) rfl, List.mapIdx_concat, ← h.routes_eq, hsize,
        Array.toList_push, List.map_append, List.map_singleton, ← hroute]
    · rw [filterMap_concat_of_eq_none rfl]
      exact h.transfers_eq s
    · rw [filterMap_concat_of_eq_none rfl]
      exact h.notices_eq
  | transfer source walk =>
    obtain ⟨rfl, -⟩ := addTransfer_ok hadd
    have hsource : source < draft.transfers.size :=
      h.made.sound.transfers_size ▸ (add?_eq_ok.1 ⟨_, hadd⟩).1
    refine ⟨h.made.addTransfer hadd, ?_, ?_, fun s => ?_, ?_⟩
    · rw [filterMap_concat_of_eq_none rfl]
      exact h.stopNames_eq
    · rw [filterMap_concat_of_eq_none rfl]
      exact h.routes_eq
    · have hold := h.transfers_eq s
      simp only [Array.getD_eq_getD_getElem?, Array.getElem?_modify] at hold ⊢
      by_cases heq : source = s
      · subst heq
        rw [filterMap_concat_of_eq_some (if_pos rfl), ← hold, if_pos rfl, Array.getElem?_eq_getElem hsource]
        rfl
      · rw [filterMap_concat_of_eq_none (if_neg heq), ← hold, if_neg heq]
    · rw [filterMap_concat_of_eq_none rfl]
      exact h.notices_eq
  | notice n =>
    cases hadd
    refine ⟨h.made.addNotice n, ?_, ?_, fun s => ?_, ?_⟩
    · rw [filterMap_concat_of_eq_none rfl]
      exact h.stopNames_eq
    · rw [filterMap_concat_of_eq_none rfl]
      exact h.routes_eq
    · rw [filterMap_concat_of_eq_none rfl]
      exact h.transfers_eq s
    · rw [filterMap_concat_of_eq_some (f := Addition.notice?) rfl, ← h.notices_eq]
      rfl

theorem Records.addAll (h : Records draft done) (additions : List Addition) :
    Records (draft.addAll additions) (done ++ draft.accepted additions) := by
  induction additions generalizing draft done with
  | nil => simpa [addAll, accepted] using h
  | cons a additions ih =>
    unfold NetworkDraft.addAll accepted
    cases hadd : draft.add? a with
    | ok draft' => simpa using ih (h.add hadd)
    | error e => exact ih h

/-! ## Each stop's routes in ascending order -/

/-- All routes of a table have lower numbers than `bound`, and those of each stop ascend. -/
def Ascends (table : Array (List RouteIndex)) (bound : Nat) : Prop :=
  ∀ s, (table.getD s []).Pairwise (· < ·) ∧ ∀ i ∈ table.getD s [], i < bound

theorem Ascends.mono {table : Array (List RouteIndex)} {m n : Nat} (h : Ascends table m) (hle : m ≤ n) :
    Ascends table n := fun s => ⟨(h s).1, fun i hi => Nat.lt_of_lt_of_le ((h s).2 i hi) hle⟩

/-- The highest route so far is entered at the end, unless it is there already. -/
theorem enterRoute_ascends {i : RouteIndex} {through : List RouteIndex} (h : through.Pairwise (· < ·))
    (hle : ∀ j ∈ through, j < i + 1) :
    (enterRoute i through).Pairwise (· < ·) ∧ ∀ j ∈ enterRoute i through, j < i + 1 := by
  refine ⟨?_, fun j hj => ?_⟩
  · unfold enterRoute
    split
    · exact h
    · rename_i hlast
      refine List.pairwise_append.2 ⟨h, List.pairwise_singleton .., fun j hj k hk => ?_⟩
      rw [List.mem_singleton.1 hk]
      refine Nat.lt_of_le_of_ne (Nat.lt_succ_iff.1 (hle j hj)) ?_
      rintro rfl
      -- A route that is there already is the highest one, and so the last.
      obtain ⟨before, after, rfl⟩ := List.append_of_mem hj
      cases after with
      | nil => simp at hlast
      | cons k after =>
        have hlt : j < k := (List.pairwise_cons.1 (List.pairwise_append.1 h).2.1).1 k List.mem_cons_self
        exact absurd (Nat.lt_of_lt_of_le hlt (Nat.lt_succ_iff.1 (hle k (by simp)))) (Nat.lt_irrefl j)
  · rcases mem_enterRoute.1 hj with hj | rfl
    · exact hle j hj
    · exact Nat.lt_succ_self j

theorem Ascends.enterStops {i : RouteIndex} (stops : List Stop) {table : Array (List RouteIndex)}
    (h : Ascends table (i + 1)) :
    Ascends (stops.foldl (fun table stop => table.modify stop (enterRoute i)) table) (i + 1) := by
  induction stops generalizing table with
  | nil => exact h
  | cons x stops ih =>
    refine ih fun s => ?_
    have hs := h s
    simp only [Array.getD_eq_getD_getElem?, Array.getElem?_modify] at hs ⊢
    split
    · cases hx : table[s]? with
      | none => simp
      | some through =>
        simp only [hx, Option.getD_some, Option.map_some] at hs ⊢
        exact enterRoute_ascends hs.1 hs.2
    · exact hs

theorem Ascends.enterRoutes (routes : List Route) {table : Array (List RouteIndex)} {n : Nat}
    (hindex : ∀ k r, routes[k]? = some r → r.index = n + k) (h : Ascends table n) :
    Ascends (routes.foldl (fun table route =>
      route.pattern.stops.foldl (fun table stop => table.modify stop (enterRoute route.index)) table) table)
      (n + routes.length) := by
  induction routes generalizing table n with
  | nil => exact h
  | cons r routes ih =>
    have hr : r.index = n := hindex 0 r rfl
    have hrest : ∀ k r', routes[k]? = some r' → r'.index = n + 1 + k := fun k r' hr' => by
      rw [hindex (k + 1) r' hr']
      omega
    rw [List.foldl_cons, List.length_cons, ← Array.foldl_toList, hr, Nat.add_comm routes.length, ← Nat.add_assoc]
    exact ih hrest ((h.mono (Nat.le_succ n)).enterStops _)

theorem Sound.routesAt_ascends (h : draft.Sound) : Ascends draft.routesAt draft.routes.size := by
  have hempty : Ascends (Array.replicate draft.stopNames.size []) 0 := fun s => by
    have hnil : (Array.replicate draft.stopNames.size ([] : List RouteIndex)).getD s [] = [] := by
      simp [Array.getD_eq_getD_getElem?, Array.getElem?_replicate]
      split <;> rfl
    simp [hnil]
  have hall := hempty.enterRoutes draft.routes.toList (fun k r hr => by simpa using h.route_index k r (by simpa using hr))
  rw [Array.foldl_toList] at hall
  simpa [routesAt] using hall

/-! ## Notices -/

/-- The first occurrence of an identifier in a route. -/
theorem find?_places (id : TripId) (route : Route) :
    (route.places route.index).find? (·.1 = id) = (placeIn? id route).map fun place => (id, place) := by
  -- The numbers of the trips are shifted by those in front, hence the function `f`.
  have htrips : ∀ (trips : List Schedule) (f : Nat → Nat),
      (trips.mapIdx fun k trip => (trip.id, TripPlace.scheduled route.index (f k))).find? (·.1 = id) =
        (trips.findIdx? fun t => decide (t.id = id)).map fun k => (id, .scheduled route.index (f k)) := by
    intro trips
    induction trips with
    | nil => exact fun _ => rfl
    | cons trip trips ih =>
      intro f
      rw [List.mapIdx_cons, List.find?_cons, List.findIdx?_cons]
      by_cases heq : trip.id = id
      · simp [heq]
      · simp only [heq, decide_false, Bool.false_eq_true, if_false]
        rw [ih fun k => f (k + 1), Option.map_map]
        rfl
  have hservices : ∀ services : List Headway,
      (services.map fun service => (service.template.id, TripPlace.headway)).find? (·.1 = id) =
        if services.any fun s => decide (s.template.id = id) then some (id, .headway) else none := by
    intro services
    induction services with
    | nil => rfl
    | cons service services ih =>
      rw [List.map_cons, List.find?_cons, List.any_cons]
      by_cases heq : service.template.id = id
      · simp [heq]
      · simpa [heq] using ih
  unfold Route.places placeIn?
  rw [List.find?_append, htrips _ fun k => k, hservices]
  cases route.trips.toList.findIdx? fun t => decide (t.id = id) with
  | some k => rfl
  | none => simp only [Array.any_toList]; split <;> rfl

theorem finish_routes_none {i : RouteIndex} (hr : draft.routes[i]? = none) : draft.finish.routes[i]? = none := by
  cases hr' : draft.finish.routes[i]? with
  | none => rfl
  | some r' =>
    obtain ⟨r, hr0, -⟩ := exists_of_markedRoutes hr'
    rw [hr] at hr0
    cases hr0

/-- Marks do not move any trip. -/
theorem places_finish (h : draft.Sound) :
    draft.finish.places = (draft.routes.toList.map fun route => route.places route.index).flatten := by
  unfold Network.places
  congr 1
  refine List.ext_getElem? fun i => ?_
  rw [List.getElem?_mapIdx, List.getElem?_map, Array.getElem?_toList, Array.getElem?_toList]
  cases hr : draft.routes[i]? with
  | some r =>
    obtain ⟨r', hr', hm⟩ := marks_fold_of draft.kept hr
    rw [show draft.finish.routes[i]? = some r' from hr', Option.map_some, Option.map_some, h.route_index i r hr]
    unfold Route.places
    rw [hm.trips, hm.services]
  | none => rw [finish_routes_none hr, Option.map_none, Option.map_none]

theorem find?_places_finish (h : draft.Sound) (id : TripId) :
    draft.finish.places.find? (·.1 = id) = (draft.place? id).map fun place => (id, place) := by
  rw [places_finish h, List.find?_flatten, place?]
  generalize draft.routes.toList = routes
  induction routes with
  | nil => rfl
  | cons route routes ih =>
    rw [List.map_cons, List.findSome?_cons, List.findSome?_cons, find?_places]
    cases placeIn? id route with
    | none => exact ih
    | some place => rfl

theorem find?_places_finish_eq_some (h : draft.Sound) {id : TripId} {place : TripPlace} :
    draft.finish.places.find? (·.1 = id) = some (id, place) ↔ draft.place? id = some place := by
  rw [find?_places_finish h]
  simp

/-- A finished route has the pattern that it had before. -/
theorem exists_route_finish {i : RouteIndex} {p : Position} :
    (∃ r, draft.finish.routes[i]? = some r ∧ p < r.pattern.size) ↔
      ∃ r, draft.routes[i]? = some r ∧ p < r.pattern.size := by
  constructor
  · rintro ⟨r', hr', hp⟩
    obtain ⟨r, hr, hm⟩ := exists_of_markedRoutes hr'
    exact ⟨r, hr, by rwa [hm.pattern] at hp⟩
  · rintro ⟨r, hr, hp⟩
    obtain ⟨r', hr', hm⟩ := marks_fold_of draft.kept hr
    exact ⟨r', hr', by rwa [hm.pattern]⟩

theorem call?_eq_some (h : draft.Sound) {id : TripId} {p : Position} {call : TripCall} :
    draft.call? id p = some call ↔ draft.finish.Calls id p call := by
  constructor
  · intro hcall
    have hinside := exists_route_finish.2 (call?_position hcall)
    unfold call? at hcall
    split at hcall
    · rename_i i k hplace
      split at hcall
      · split at hcall
        · cases hcall
          exact ⟨(find?_places_finish_eq_some h).2 hplace, rfl, hinside⟩
        · cases hcall
      · cases hcall
    · cases hcall
  · rintro ⟨hfirst, rfl, hinside⟩
    obtain ⟨r, hr, hp⟩ := exists_route_finish.1 hinside
    simp [call?, (find?_places_finish_eq_some h).1 hfirst, hr, hp]

theorem resolve?_eq_some (h : draft.Sound) {notice : ConnectionNotice} {entry : ConnectionEntry} :
    draft.resolve? notice = some entry ↔ draft.finish.Resolves notice entry := by
  constructor
  · intro hentry
    unfold resolve? at hentry
    split at hentry
    · cases hentry
    · rename_i alight halight
      split at hentry
      · cases hentry
      · rename_i board hboard
        cases hentry
        exact ⟨(call?_eq_some h).1 halight, (call?_eq_some h).1 hboard, rfl⟩
  · rintro ⟨halight, hboard, hterms⟩
    simp [resolve?, (call?_eq_some h).2 halight, (call?_eq_some h).2 hboard, ← hterms]

/-! ## Marks -/

/-- A mark was there before, or some entry has left it. -/
theorem exists_entry_of_mark (entries : List ConnectionEntry) (routes : Array Route) {i : RouteIndex} {r r' : Route}
    (hr : routes[i]? = some r)
    (hr' : (entries.foldl (fun routes e => routes.modify e.board.route fun r => r.markTerms e.board.position)
      routes)[i]? = some r') {p : Position} (hp : p ∈ r'.termsAt) :
    p ∈ r.termsAt ∨ ∃ e ∈ entries, e.board.route = i ∧ e.board.position = p := by
  -- The routes are general, since the first entry has marked one of them before the rest is entered.
  induction entries generalizing routes r with
  | nil =>
    rw [List.foldl_nil, hr] at hr'
    cases hr'
    exact .inl hp
  | cons e entries ih =>
    rw [List.foldl_cons] at hr'
    by_cases heq : e.board.route = i
    · have hmarked : (routes.modify e.board.route fun r => r.markTerms e.board.position)[i]? =
          some (r.markTerms e.board.position) := by rw [Array.getElem?_modify, if_pos heq, hr, Option.map_some]
      rcases ih _ hmarked hr' with hmem | ⟨e', he', hboard⟩
      · unfold Route.markTerms at hmem
        split at hmem
        · rcases List.mem_append.1 hmem with hmem | hmem
          · exact .inl hmem
          · exact .inr ⟨e, List.mem_cons_self, heq, (List.mem_singleton.1 hmem).symm⟩
        · exact .inl hmem
      · exact .inr ⟨e', List.mem_cons_of_mem e he', hboard⟩
    · have hsame : (routes.modify e.board.route fun r => r.markTerms e.board.position)[i]? = some r := by
        rw [Array.getElem?_modify, if_neg heq, hr]
      rcases ih _ hsame hr' with hmem | ⟨e', he', hboard⟩
      · exact .inl hmem
      · exact .inr ⟨e', List.mem_cons_of_mem e he', hboard⟩

theorem termsAt_ofTimetable {i : RouteIndex} {id : RouteId} {mode : Mode} {pattern : StopPattern}
    {trips : List Schedule} {services : List Headway} {route : Route}
    (h : Route.ofTimetable i id mode pattern trips services = .ok route) : route.termsAt = [] := by
  unfold Route.ofTimetable at h
  split at h
  · cases h
  · split at h
    · cases h
    · cases h
      rfl

/-- Before the notices are resolved no route has marks. -/
theorem Records.unmarked (h : Records draft done) {i : RouteIndex} {r : Route} (hr : draft.routes[i]? = some r) :
    r.termsAt = [] := by
  have hmade : ((done.filterMap Addition.timetable?).mapIdx fun i make => make i)[i]? = some (.ok r) := by
    rw [← h.routes_eq]
    simp [hr]
  rw [List.getElem?_mapIdx] at hmade
  obtain ⟨make, hmake, heq⟩ := Option.map_eq_some_iff.1 hmade
  obtain ⟨a, -, ha⟩ := List.mem_filterMap.1 (List.mem_of_getElem? hmake)
  cases a with
  | route id mode pattern trips services _ =>
    cases ha
    exact termsAt_ofTimetable heq
  | _ => cases ha

theorem Records.hasTermsAt_iff (h : Records draft done) {i : RouteIndex} {r' : Route}
    (hr' : draft.finish.routes[i]? = some r') (p : Position) :
    r'.hasTermsAt p = true ↔ ∃ e ∈ draft.kept, e.board.route = i ∧ e.board.position = p := by
  constructor
  · intro hp
    obtain ⟨r, hr, -⟩ := exists_of_markedRoutes hr'
    rcases exists_entry_of_mark draft.kept draft.routes hr hr' (List.contains_iff_mem.1 hp) with hold | hentry
    · rw [h.unmarked hr] at hold
      cases hold
    · exact hentry
  · rintro ⟨e, he, rfl, rfl⟩
    exact hasTermsAt_of_kept he hr'

/-- Apart from their marks the routes are the ones that were added. -/
theorem Records.finish_routes_eq (h : Records draft done) :
    (draft.finish.routes.toList.map fun route => .ok { route with termsAt := [] }) =
      (done.filterMap Addition.timetable?).mapIdx fun i make => make i := by
  rw [← h.routes_eq]
  refine List.ext_getElem? fun i => ?_
  rw [List.getElem?_map, List.getElem?_map, Array.getElem?_toList, Array.getElem?_toList]
  cases hr : draft.routes[i]? with
  | some r =>
    obtain ⟨r', hr', hm⟩ := marks_fold_of draft.kept hr
    have hunmarked : { r' with termsAt := [] } = r := by
      rw [hm.eq, ← h.unmarked hr]
    rw [show draft.finish.routes[i]? = some r' from hr', Option.map_some, Option.map_some, hunmarked]
  | none => rw [finish_routes_none hr, Option.map_none, Option.map_none]

/-- Whatever number a route gets, its trips and services are those that were given, in order. -/
theorem sorts_of_timetable? (done : List Addition) :
    List.Forall₂ (fun make given => ∀ i route, make i = .ok route → route.Sorts given.1 given.2)
      (done.filterMap Addition.timetable?) (done.filterMap Addition.runs?) := by
  induction done with
  | nil => exact .nil
  | cons a done ih =>
    cases a with
    | route id mode pattern trips services _ => exact .cons (fun _ _ h => Route.sorts_ofTimetable h) ih
    | _ => exact ih

theorem Records.finish_sorts (h : Records draft done) :
    List.Forall₂ (fun route given => route.Sorts given.1 given.2) draft.finish.routes.toList
      (done.filterMap Addition.runs?) := by
  obtain ⟨hlength, hsorts⟩ := List.forall₂_iff_get.1 (sorts_of_timetable? done)
  have hroutes := h.finish_routes_eq
  refine List.forall₂_iff_get.2 ⟨?_, fun i hi hi' => ?_⟩
  · rw [← hlength]
    simpa using congrArg List.length hroutes
  · -- The route is its addition's, apart from the marks, and these move no trip.
    have hmake := congrArg (·[i]?) hroutes
    simp only [List.getElem?_map, List.getElem?_mapIdx, List.getElem?_eq_getElem hi,
      List.getElem?_eq_getElem (hlength ▸ hi'), Option.map_some, Option.some.injEq] at hmake
    obtain ⟨htrips, hservices⟩ := hsorts i (hlength ▸ hi') hi' i _ hmake.symm
    exact ⟨htrips, hservices⟩

/-! ## The finished network -/

theorem Records.reflects (h : Records draft done) : Reflects draft done where
  stopNames_eq := h.stopNames_eq
  routes_eq := h.finish_routes_eq
  sorts := h.finish_sorts
  routesThrough_ascending s := (h.made.sound.routesAt_ascends s).1
  mem_routesThrough := h.made.sound_finish.mem_routesThrough
  transfersFrom_eq := h.transfers_eq
  resolve?_eq_some _ _ := NetworkDraft.resolve?_eq_some h.made.sound
  kept_eq := by rw [kept, h.notices_eq]
  connections_eq := rfl
  hasTermsAt_iff _ _ := h.hasTermsAt_iff

/-- The network that some additions build, whatever their order and whichever of them are refused, reflects
those that are accepted. -/
theorem reflects_addAll (additions : List Addition) :
    Reflects (addAll .empty additions) (accepted .empty additions) :=
  (records_empty.addAll additions).reflects

end NetworkDraft

end JourneyPlanner
