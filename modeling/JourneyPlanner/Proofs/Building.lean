import JourneyPlanner.Network.Draft
import JourneyPlanner.Proofs.Gives
/-!
# What a built network looks like

`Network.IsBuilt` says that a network is the finish of a draft to which stops, routes, transfers and
notices have been added one after another. `Network.Sound` is what a search relies on: numbers that
stand for something, each stop's routes, and the terms of changes, each once and marked where the
second trip is boarded. `Network.sound_of_isBuilt` derives it.
-/
namespace JourneyPlanner

/-- The service repeats a trip whose times count from its first departure. -/
def Headway.IsOfTrip (s : Headway) : Prop :=
  ∃ trip start finish interval, Headway.ofTrip trip start finish interval = .ok s

namespace NetworkDraft

/-- The drafts that can be made. Additions that are refused leave the draft as it is. -/
inductive Made : NetworkDraft → Prop
  | empty : Made .empty
  | addStop {draft : NetworkDraft} (name : String) : Made draft → Made (draft.addStop name)
  | addRoute {draft draft' : NetworkDraft} {id : RouteId} {mode : Mode} {pattern : StopPattern}
      {trips : List Schedule} {services : List Headway} : Made draft →
      (∀ s ∈ services, s.IsOfTrip) → draft.addRoute id mode pattern trips services = .ok draft' →
      Made draft'
  | addTransfer {draft draft' : NetworkDraft} {source : Stop} {transfer : Transfer} : Made draft →
      draft.addTransfer source transfer = .ok draft' → Made draft'
  | addNotice {draft : NetworkDraft} (notice : ConnectionNotice) : Made draft →
      Made (draft.addNotice notice)

/-- What every draft keeps to. -/
structure Sound (draft : NetworkDraft) : Prop where
  transfers_size : draft.transfers.size = draft.stopNames.size
  transfer_target : ∀ s, ∀ t ∈ draft.transfers.getD s [], t.target < draft.stopNames.size
  route_index : ∀ (i : RouteIndex) (r : Route), draft.routes[i]? = some r → r.index = i
  route_stop : ∀ r ∈ draft.routes, ∀ s ∈ r.pattern.stops, s < draft.stopNames.size
  service_isOfTrip : ∀ r ∈ draft.routes, ∀ s ∈ r.services, s.IsOfTrip

end NetworkDraft

/-- A network that has been built from the start. -/
def Network.IsBuilt (net : Network) : Prop := ∃ draft : NetworkDraft, draft.Made ∧ net = draft.finish

/-- What a search relies on. -/
structure Network.Sound (net : Network) : Prop where
  transfer_target : ∀ s, ∀ t ∈ net.transfersFrom s, t.target < net.stopCount
  route_index : ∀ (i : RouteIndex) (r : Route), net.routes[i]? = some r → r.index = i
  route_stop : ∀ r ∈ net.routes, ∀ s ∈ r.pattern.stops, s < net.stopCount
  service_isOfTrip : ∀ r ∈ net.routes, ∀ s ∈ r.services, s.IsOfTrip
  /-- Exactly the routes that serve a stop lead through it. -/
  mem_routesThrough : ∀ s i,
    i ∈ net.routesThrough s ↔ ∃ r, net.routes[i]? = some r ∧ s ∈ r.pattern.stops
  terms_nodup : (net.connections.entries.map fun e => (e.alight, e.board)).Nodup
  terms_marked : ∀ e ∈ net.connections.entries, ∀ r, net.routes[e.board.route]? = some r →
    r.hasTermsAt e.board.position = true

/-! ## The stops of a route -/

namespace StopPattern

variable {pattern : StopPattern} {p : Position}

theorem stop_eq_getElem (hp : p < pattern.stops.size) : pattern.stop p = pattern.stops[p] := by
  unfold stop
  rw [Array.getD_eq_getD_getElem?, Array.getElem?_eq_getElem hp]
  rfl

theorem stop?_eq (hp : p < pattern.size) : pattern.stop? p = .ok (pattern.stop p) := by
  rw [stop_eq_getElem hp]
  unfold stop?
  rw [Array.getElem?_eq_getElem hp]

theorem stop_mem (hp : p < pattern.size) : pattern.stop p ∈ pattern.stops := by
  rw [stop_eq_getElem hp]
  exact Array.getElem_mem hp

end StopPattern

theorem Network.Sound.stop_lt {net : Network} (h : net.Sound) {i : RouteIndex} {route : Route}
    (hroute : net.routes[i]? = some route) {p : Position} (hp : p < route.pattern.size) :
    route.pattern.stop p < net.stopCount :=
  h.route_stop route (Array.mem_of_getElem? hroute) _ (StopPattern.stop_mem hp)

/-! ## Drafts -/

theorem Route.index_ofTimetable {index : RouteIndex} {id : RouteId} {mode : Mode} {pattern : StopPattern}
    {trips : List Schedule} {services : List Headway} {route : Route}
    (h : Route.ofTimetable index id mode pattern trips services = .ok route) :
    route.index = index ∧ route.pattern = pattern ∧ ∀ s ∈ route.services, s ∈ services := by
  simp only [Route.ofTimetable] at h
  split at h
  · cases h
  · split at h
    · cases h
    · cases h
      exact ⟨rfl, rfl, fun s hs => by simpa using hs⟩

namespace NetworkDraft

theorem checkStop_ok {draft : NetworkDraft} {s : Stop} (h : draft.checkStop s = .ok ()) :
    s < draft.stopNames.size := by
  simp only [checkStop] at h
  split at h
  · assumption
  · cases h

theorem foldlM_checkStop_ok {draft : NetworkDraft} {stops : List Stop}
    (h : stops.foldlM (fun _ => draft.checkStop) () = .ok ()) : ∀ s ∈ stops, s < draft.stopNames.size := by
  induction stops with
  | nil => simp
  | cons s stops ih =>
    rw [List.foldlM_cons] at h
    cases hs : draft.checkStop s with
    | error e => rw [hs] at h; cases h
    | ok u =>
      rw [hs] at h
      intro x hx
      rcases List.mem_cons.1 hx with rfl | hx
      · exact checkStop_ok hs
      · exact ih h x hx

/-- What an accepted route adds to a draft. -/
theorem addRoute_ok {draft draft' : NetworkDraft} {id : RouteId} {mode : Mode} {pattern : StopPattern}
    {trips : List Schedule} {services : List Headway}
    (h : draft.addRoute id mode pattern trips services = .ok draft') :
    ∃ route, draft' = { draft with routes := draft.routes.push route } ∧
      route.index = draft.routes.size ∧ (∀ s ∈ route.pattern.stops, s < draft.stopNames.size) ∧
      ∀ s ∈ route.services, s ∈ services := by
  simp only [addRoute] at h
  cases hc : pattern.stops.forM draft.checkStop with
  | error e => rw [hc] at h; cases h
  | ok u =>
    rw [hc] at h
    cases hr : Route.ofTimetable draft.routes.size id mode pattern trips services with
    | error e => simp only [hr] at h; cases h
    | ok route =>
      simp only [hr] at h
      obtain ⟨hi, hp, hs⟩ := Route.index_ofTimetable hr
      refine ⟨route, by cases h; rfl, hi, ?_, hs⟩
      rw [hp]
      simp only [Array.forM] at hc
      rw [← Array.foldlM_toList] at hc
      exact fun s hs => foldlM_checkStop_ok hc s (by simpa using hs)

/-- What an accepted transfer adds to a draft. -/
theorem addTransfer_ok {draft draft' : NetworkDraft} {source : Stop} {transfer : Transfer}
    (h : draft.addTransfer source transfer = .ok draft') :
    draft' = { draft with transfers := draft.transfers.modify source (· ++ [transfer]) } ∧
      transfer.target < draft.stopNames.size := by
  simp only [addTransfer] at h
  cases h1 : draft.checkStop source with
  | error e => rw [h1] at h; cases h
  | ok u =>
    rw [h1] at h
    cases h2 : draft.checkStop transfer.target with
    | error e => simp only [h2] at h; cases h
    | ok u =>
      simp only [h2] at h
      exact ⟨by cases h; rfl, checkStop_ok h2⟩

theorem sound_empty : Sound .empty := by
  constructor <;> simp [empty]

theorem Sound.addStop {draft : NetworkDraft} (h : draft.Sound) (name : String) :
    (draft.addStop name).Sound where
  transfers_size := by simp [NetworkDraft.addStop, h.transfers_size]
  transfer_target s t ht := by
    simp only [NetworkDraft.addStop, Array.getD_eq_getD_getElem?, Array.getElem?_push] at ht
    have key : t ∈ draft.transfers.getD s [] := by
      rw [Array.getD_eq_getD_getElem?]
      split at ht
      · simp at ht
      · exact ht
    simp only [NetworkDraft.addStop, Array.size_push]
    exact Nat.lt_succ_of_lt (h.transfer_target s t key)
  route_index := h.route_index
  route_stop r hr s hs := by
    simp only [NetworkDraft.addStop, Array.size_push]
    exact Nat.lt_succ_of_lt (h.route_stop r hr s hs)
  service_isOfTrip := h.service_isOfTrip

theorem Sound.addRoute {draft draft' : NetworkDraft} {id : RouteId} {mode : Mode} {pattern : StopPattern}
    {trips : List Schedule} {services : List Headway} (h : draft.Sound)
    (hs : ∀ s ∈ services, s.IsOfTrip)
    (hadd : draft.addRoute id mode pattern trips services = .ok draft') : draft'.Sound := by
  obtain ⟨route, rfl, hindex, hstops, hservices⟩ := addRoute_ok hadd
  refine ⟨h.transfers_size, h.transfer_target, ?_, ?_, ?_⟩
  · intro i r hr
    rw [Array.getElem?_push] at hr
    split at hr
    · rename_i hi
      cases hr
      rw [hi, hindex]
    · exact h.route_index i r hr
  · intro r hr
    rcases Array.mem_push.1 hr with hr | rfl
    · exact h.route_stop r hr
    · exact hstops
  · intro r hr s hs'
    rcases Array.mem_push.1 hr with hr | rfl
    · exact h.service_isOfTrip r hr s hs'
    · exact hs s (hservices s hs')

theorem Sound.addTransfer {draft draft' : NetworkDraft} {source : Stop} {transfer : Transfer}
    (h : draft.Sound) (hadd : draft.addTransfer source transfer = .ok draft') : draft'.Sound := by
  obtain ⟨rfl, htarget⟩ := addTransfer_ok hadd
  refine ⟨by simpa using h.transfers_size, ?_, h.route_index, h.route_stop, h.service_isOfTrip⟩
  intro s t ht
  simp only [Array.getD_eq_getD_getElem?, Array.getElem?_modify] at ht
  have hold := h.transfer_target s t
  rw [Array.getD_eq_getD_getElem?] at hold
  split at ht
  · cases hl : draft.transfers[s]? with
    | none => simp [hl] at ht
    | some l =>
      simp only [hl, Option.map_some, Option.getD_some, List.mem_append, List.mem_singleton] at ht hold
      rcases ht with ht | rfl
      · exact hold ht
      · exact htarget
  · exact hold ht

theorem Made.sound {draft : NetworkDraft} (h : draft.Made) : draft.Sound := by
  induction h with
  | empty => exact sound_empty
  | addStop name _ ih => exact ih.addStop name
  | addRoute _ hs hadd ih => exact ih.addRoute hs hadd
  | addTransfer _ hadd ih => exact ih.addTransfer hadd
  | addNotice _ _ ih => exact ⟨ih.1, ih.2, ih.3, ih.4, ih.5⟩

/-! ## Routes by stop -/

theorem mem_enterRoute {i j : RouteIndex} {through : List RouteIndex} :
    j ∈ enterRoute i through ↔ j ∈ through ∨ j = i := by
  unfold enterRoute
  split
  · rename_i h
    have hi : i ∈ through := List.mem_of_getLast? h
    constructor
    · exact .inl
    · rintro (h | rfl)
      · exact h
      · exact hi
  · simp

/-- Entering a route at some stops of a table. -/
theorem mem_enterStops {i j : RouteIndex} {s : Stop} (stops : List Stop)
    (table : Array (List RouteIndex)) :
    j ∈ (stops.foldl (fun t s => t.modify s (enterRoute i)) table).getD s [] ↔
      j ∈ table.getD s [] ∨ j = i ∧ s ∈ stops ∧ s < table.size := by
  induction stops generalizing table with
  | nil => simp
  | cons x stops ih =>
    rw [List.foldl_cons, ih, Array.size_modify]
    simp only [Array.getD_eq_getD_getElem?, Array.getElem?_modify, List.mem_cons]
    by_cases hx : x = s
    · subst hx
      by_cases hlt : x < table.size
      · simp only [if_true, Array.getElem?_eq_getElem hlt, Option.map_some, Option.getD_some, mem_enterRoute]
        grind
      · simp only [if_true, Array.getElem?_eq_none (Nat.le_of_not_lt hlt), Option.map_none]
        grind
    · rw [if_neg hx]
      grind

theorem size_enterStops {i : RouteIndex} (stops : List Stop) (table : Array (List RouteIndex)) :
    (stops.foldl (fun t s => t.modify s (enterRoute i)) table).size = table.size := by
  induction stops generalizing table with
  | nil => rfl
  | cons x stops ih => rw [List.foldl_cons, ih, Array.size_modify]

theorem mem_enterRoutes {j : RouteIndex} {s : Stop} (routes : List Route)
    (table : Array (List RouteIndex)) :
    j ∈ (routes.foldl (fun table route =>
        route.pattern.stops.foldl (fun t s => t.modify s (enterRoute route.index)) table) table).getD s [] ↔
      j ∈ table.getD s [] ∨ ∃ r ∈ routes, j = r.index ∧ s ∈ r.pattern.stops ∧ s < table.size := by
  induction routes generalizing table with
  | nil => simp
  | cons r routes ih =>
    rw [List.foldl_cons, ih]
    simp only [← Array.foldl_toList, mem_enterStops, size_enterStops, Array.mem_toList_iff]
    grind

/-! ## Marks and terms -/

theorem mem_termsAt_markTerms {r : Route} {p q : Position} (h : q ∈ r.termsAt) :
    q ∈ (r.markTerms p).termsAt := by
  unfold Route.markTerms
  split
  · exact List.mem_append_left _ h
  · exact h

theorem mem_termsAt_markTerms_self {r : Route} {p : Position} (h : p < r.pattern.size) :
    p ∈ (r.markTerms p).termsAt := by
  unfold Route.markTerms
  split
  · simp
  · rename_i hn
    exact Classical.not_not.1 fun hp => hn ⟨h, hp⟩

/-- The second route is the first one, with more marks at most. -/
structure Marks (r r' : Route) : Prop where
  eq : r' = { r with termsAt := r'.termsAt }
  termsAt : ∀ p ∈ r.termsAt, p ∈ r'.termsAt

theorem Marks.index {r r' : Route} (h : Marks r r') : r'.index = r.index := (congrArg Route.index h.eq :)

theorem Marks.pattern {r r' : Route} (h : Marks r r') : r'.pattern = r.pattern := (congrArg Route.pattern h.eq :)

theorem Marks.trips {r r' : Route} (h : Marks r r') : r'.trips = r.trips := (congrArg Route.trips h.eq :)

theorem Marks.services {r r' : Route} (h : Marks r r') : r'.services = r.services := (congrArg Route.services h.eq :)

theorem Marks.trans {r r' r'' : Route} (h : Marks r r') (h' : Marks r' r'') : Marks r r'' where
  eq := h'.eq.trans (by rw [h.eq])
  termsAt p hp := h'.termsAt p (h.termsAt p hp)

theorem marks_markTerms (r : Route) (p : Position) : Marks r (r.markTerms p) := by
  refine ⟨?_, fun q hq => mem_termsAt_markTerms hq⟩
  unfold Route.markTerms
  split <;> rfl

/-- Marking for some entries adds marks to routes and changes nothing else. -/
theorem marks_fold (entries : List ConnectionEntry) (routes : Array Route) (i : RouteIndex) (r' : Route)
    (h : (entries.foldl (fun routes e => routes.modify e.board.route fun r => r.markTerms e.board.position)
      routes)[i]? = some r') :
    ∃ r, routes[i]? = some r ∧ Marks r r' := by
  induction entries generalizing routes with
  | nil => exact ⟨r', h, rfl, fun _ hp => hp⟩
  | cons e entries ih =>
    obtain ⟨r1, h1, hm⟩ := ih _ h
    rw [Array.getElem?_modify] at h1
    split at h1
    · obtain ⟨r, hr, rfl⟩ := Option.map_eq_some_iff.1 h1
      exact ⟨r, hr, (marks_markTerms r e.board.position).trans hm⟩
    · exact ⟨r1, h1, hm⟩

/-- Every route has its marked version. -/
theorem marks_fold_of (entries : List ConnectionEntry) {routes : Array Route} {i : RouteIndex} {r : Route}
    (h : routes[i]? = some r) :
    ∃ r', (entries.foldl
      (fun routes e => routes.modify e.board.route fun r => r.markTerms e.board.position) routes)[i]? =
        some r' ∧ Marks r r' := by
  have hsize : ∀ (entries : List ConnectionEntry) (routes : Array Route), (entries.foldl
      (fun routes e => routes.modify e.board.route fun r => r.markTerms e.board.position) routes).size =
        routes.size := by
    intro entries
    induction entries with
    | nil => exact fun _ => rfl
    | cons e entries ih => exact fun routes => by rw [List.foldl_cons, ih, Array.size_modify]
  have hi : i < routes.size := (Array.getElem?_eq_some_iff.1 h).1
  rw [← hsize entries routes] at hi
  have hr' := Array.getElem?_eq_getElem hi
  obtain ⟨r0, h0, hm⟩ := marks_fold _ _ _ _ hr'
  rw [h] at h0
  cases h0
  exact ⟨_, hr', hm⟩

/-- Every entry for a position of the pattern leaves its mark. -/
theorem marked_fold (entries : List ConnectionEntry) (routes : Array Route) (e : ConnectionEntry)
    (he : e ∈ entries) (hp : ∀ r, routes[e.board.route]? = some r → e.board.position < r.pattern.size)
    (r' : Route)
    (h : (entries.foldl (fun routes e => routes.modify e.board.route fun r => r.markTerms e.board.position)
      routes)[e.board.route]? = some r') :
    e.board.position ∈ r'.termsAt := by
  induction entries generalizing routes with
  | nil => cases he
  | cons x entries ih =>
    rcases List.mem_cons.1 he with rfl | he
    · obtain ⟨r1, h1, hm⟩ := marks_fold entries _ _ _ h
      rw [Array.getElem?_modify, if_pos rfl] at h1
      obtain ⟨r, hr, rfl⟩ := Option.map_eq_some_iff.1 h1
      exact hm.termsAt _ (mem_termsAt_markTerms_self (hp r hr))
    · refine ih _ he ?_ h
      intro r hr
      rw [Array.getElem?_modify] at hr
      split at hr
      · obtain ⟨r0, hr0, rfl⟩ := Option.map_eq_some_iff.1 hr
        rw [(marks_markTerms r0 x.board.position).pattern]
        exact hp r0 hr0
      · exact hp r hr

end NetworkDraft

namespace ConnectionTable

/-- The change that an entry is about. -/
def keys (entries : List ConnectionEntry) : List (TripCall × TripCall) :=
  entries.map fun e => (e.alight, e.board)

theorem keys_enter (alight board : TripCall) (terms : ConnectionTerms) (entries : List ConnectionEntry) :
    keys (enter alight board terms entries) =
      if (alight, board) ∈ keys entries then keys entries else keys entries ++ [(alight, board)] := by
  induction entries with
  | nil => rfl
  | cons e entries ih =>
    unfold enter
    split
    · rename_i h
      obtain ⟨rfl, rfl⟩ := h
      rw [if_pos (by simp [keys])]
      rfl
    · rename_i h
      have hne : ¬ (alight, board) = (e.alight, e.board) := fun heq => by
        cases heq
        exact h ⟨rfl, rfl⟩
      have hmem : (alight, board) ∈ keys (e :: entries) ↔ (alight, board) ∈ keys entries := by
        simp only [keys, List.map_cons, List.mem_cons]
        exact ⟨fun h => h.resolve_left hne, .inr⟩
      simp only [hmem]
      show (e.alight, e.board) :: keys (enter alight board terms entries) = _
      rw [ih]
      split <;> rfl

/-- In a table that has each change once, an entry is found under its change. -/
theorem lookup?_of_mem {table : ConnectionTable} (h : (keys table.entries).Nodup) {e : ConnectionEntry}
    (he : e ∈ table.entries) : table.lookup? e.alight e.board = some e.terms := by
  obtain ⟨before, after, hsplit⟩ := List.append_of_mem he
  unfold lookup?
  rw [hsplit] at h ⊢
  unfold keys at h
  rw [List.map_append, List.nodup_append] at h
  have hfind : (before ++ e :: after).find? (fun x => x.alight = e.alight ∧ x.board = e.board) = some e := by
    refine List.find?_eq_some_iff_append.2 ⟨by simp, before, after, rfl, fun x hx => ?_⟩
    have hne := h.2.2 (x.alight, x.board) (List.mem_map_of_mem hx) (e.alight, e.board) (by simp)
    simp only [Bool.not_eq_true', decide_eq_false_iff_not]
    exact fun h => hne (by rw [h.1, h.2])
  rw [hfind]
  rfl

/-- The table of some entries has each of their changes once. -/
theorem keys_fold (new : List ConnectionEntry) (table : ConnectionTable) (h : (keys table.entries).Nodup) :
    let table' := new.foldl (fun table e => table.insert e.alight e.board e.terms) table
    (keys table'.entries).Nodup ∧
      ∀ k ∈ keys table'.entries, k ∈ keys table.entries ∨ k ∈ keys new := by
  induction new generalizing table with
  | nil => exact ⟨h, fun k hk => .inl hk⟩
  | cons e new ih =>
    have hkeys : keys (table.insert e.alight e.board e.terms).entries = _ :=
      keys_enter e.alight e.board e.terms table.entries
    have hnodup : (keys (table.insert e.alight e.board e.terms).entries).Nodup := by
      rw [hkeys]
      split
      · exact h
      · rename_i hn
        rw [List.nodup_append]
        refine ⟨h, by simp, fun a ha b hb => ?_⟩
        rw [List.mem_singleton.1 hb]
        rintro rfl
        exact hn ha
    obtain ⟨h1, h2⟩ := ih _ hnodup
    refine ⟨h1, fun k hk => ?_⟩
    rcases h2 k hk with hk | hk
    · rw [hkeys] at hk
      split at hk
      · exact .inl hk
      · rcases List.mem_append.1 hk with hk | hk
        · exact .inl hk
        · rw [List.mem_singleton.1 hk]
          exact .inr List.mem_cons_self
    · exact .inr (List.mem_cons_of_mem _ hk)

end ConnectionTable

namespace NetworkDraft

theorem call?_position {draft : NetworkDraft} {id : TripId} {p : Position} {call : TripCall}
    (h : draft.call? id p = some call) :
    ∃ r, draft.routes[call.route]? = some r ∧ call.position < r.pattern.size := by
  simp only [call?] at h
  split at h
  · split at h
    · rename_i r hr
      split at h
      · rename_i hp
        cases h
        exact ⟨r, hr, hp⟩
      · cases h
    · cases h
  · cases h

/-- A kept notice boards at a position of a pattern. -/
theorem kept_position {draft : NetworkDraft} {e : ConnectionEntry} (he : e ∈ draft.kept) :
    ∃ r, draft.routes[e.board.route]? = some r ∧ e.board.position < r.pattern.size := by
  simp only [kept] at he
  obtain ⟨notice, _, hn⟩ := List.mem_filterMap.1 he
  simp only [resolve?] at hn
  split at hn
  · cases hn
  · split at hn
    · cases hn
    · rename_i board hb
      cases hn
      exact call?_position hb

variable {draft : NetworkDraft}

theorem exists_of_markedRoutes {i : RouteIndex} {r' : Route} (h : draft.markedRoutes[i]? = some r') :
    ∃ r, draft.routes[i]? = some r ∧ Marks r r' :=
  marks_fold _ _ _ _ h

theorem exists_of_mem_markedRoutes {r' : Route} (h : r' ∈ draft.markedRoutes) : ∃ r ∈ draft.routes, Marks r r' := by
  obtain ⟨i, hi⟩ := Array.mem_iff_getElem?.1 h
  obtain ⟨r, hr, hm⟩ := exists_of_markedRoutes hi
  exact ⟨r, Array.mem_of_getElem? hr, hm⟩

/-- A finished table lists the routes that serve a stop. -/
theorem Sound.mem_routesAt (h : draft.Sound) {s : Stop} {i : RouteIndex} :
    i ∈ draft.routesAt.getD s [] ↔ ∃ r, draft.routes[i]? = some r ∧ s ∈ r.pattern.stops := by
  have hthrough := mem_enterRoutes (j := i) (s := s) draft.routes.toList (Array.replicate draft.stopNames.size [])
  rw [Array.foldl_toList] at hthrough
  unfold routesAt
  rw [hthrough]
  simp only [Array.mem_toList_iff, Array.size_replicate]
  have hnil : i ∉ (Array.replicate draft.stopNames.size ([] : List RouteIndex)).getD s [] := by
    simp [Array.getD_eq_getD_getElem?, Array.getElem?_replicate]
    split <;> simp
  constructor
  · rintro (hin | ⟨r, hr, rfl, hs, _⟩)
    · exact absurd hin hnil
    · obtain ⟨k, hk⟩ := Array.mem_iff_getElem?.1 hr
      rw [h.route_index k r hk]
      exact ⟨r, hk, hs⟩
  · rintro ⟨r, hr, hs⟩
    have hr0 := Array.mem_of_getElem? hr
    exact .inr ⟨r, hr0, (h.route_index i r hr).symm, hs, h.route_stop r hr0 s hs⟩

/-- Each notice that is kept leaves its mark. -/
theorem hasTermsAt_of_kept {k : ConnectionEntry} (hk : k ∈ draft.kept) {r' : Route}
    (hr' : draft.markedRoutes[k.board.route]? = some r') : r'.hasTermsAt k.board.position = true := by
  obtain ⟨r, hr, hp⟩ := kept_position hk
  apply List.contains_iff_mem.2
  apply marked_fold draft.kept draft.routes k hk ?_ r' hr'
  intro r0 hr0
  rw [hr] at hr0
  cases hr0
  exact hp

/-- The finish of a draft is sound. -/
theorem Made.sound_finish (hmade : draft.Made) : draft.finish.Sound := by
  have h := hmade.sound
  obtain ⟨hnodup, hkeys⟩ := ConnectionTable.keys_fold draft.kept .empty List.nodup_nil
  refine ⟨h.transfer_target, ?_, ?_, ?_, ?_, hnodup, ?_⟩
  · intro i r' hr'
    obtain ⟨r, hr, hm⟩ := exists_of_markedRoutes hr'
    rw [hm.index]
    exact h.route_index i r hr
  · intro r' hr' s hs
    obtain ⟨r, hr, hm⟩ := exists_of_mem_markedRoutes hr'
    rw [hm.pattern] at hs
    exact h.route_stop r hr s hs
  · intro r' hr' s hs
    obtain ⟨r, hr, hm⟩ := exists_of_mem_markedRoutes hr'
    rw [hm.services] at hs
    exact h.service_isOfTrip r hr s hs
  · intro s i
    apply h.mem_routesAt.trans
    constructor
    · rintro ⟨r, hr, hs⟩
      obtain ⟨r', hr', hm⟩ := marks_fold_of draft.kept hr
      exact ⟨r', hr', by rwa [hm.pattern]⟩
    · rintro ⟨r', hr', hs⟩
      obtain ⟨r, hr, hm⟩ := exists_of_markedRoutes hr'
      exact ⟨r, hr, by rwa [hm.pattern] at hs⟩
  · intro e he r' hr'
    have hkey : (e.alight, e.board) ∈ ConnectionTable.keys draft.kept :=
      (hkeys _ (List.mem_map_of_mem he)).resolve_left (by simp [ConnectionTable.keys, ConnectionTable.empty])
    obtain ⟨k, hk, heq⟩ := List.mem_map.1 hkey
    obtain ⟨_, hboard⟩ := Prod.mk.inj heq
    rw [← hboard] at hr' ⊢
    exact hasTermsAt_of_kept hk hr'

end NetworkDraft

theorem Network.sound_of_isBuilt {net : Network} (h : net.IsBuilt) : net.Sound := by
  obtain ⟨draft, hmade, rfl⟩ := h
  exact hmade.sound_finish

/-! ## A network with one ferry -/

/-- A walk from a village to the landing, and a ferry from there to an island. -/
def NetworkDraft.ferry? : Except DataError NetworkDraft := do
  let crossing ← Schedule.uniform ⟨"crossing", by decide⟩ #[.hms 8 20 0, .hms 8 30 0]
  let pattern ← StopPattern.ofStops "ferry" #[1, 2]
  let walk ← Transfer.to 1 300 300
  let draft := ((NetworkDraft.empty.addStop "Village").addStop "Landing").addStop "Island"
  let draft ← draft.addRoute ⟨"ferry", by decide⟩ .ferry pattern [crossing] []
  draft.addTransfer 0 walk

/-- The finished network. -/
def Network.ferry : Network := (NetworkDraft.ferry?.toOption.getD .empty).finish

theorem NetworkDraft.made_ferry {draft : NetworkDraft} (h : ferry? = .ok draft) : draft.Made := by
  obtain ⟨crossing, _, h⟩ := of_bind_eq_ok h
  obtain ⟨pattern, _, h⟩ := of_bind_eq_ok h
  obtain ⟨walk, _, h⟩ := of_bind_eq_ok h
  obtain ⟨draft', hroute, htransfer⟩ := of_bind_eq_ok h
  exact .addTransfer (.addRoute (.addStop _ (.addStop _ (.addStop _ .empty))) (by simp) hroute) htransfer

theorem Network.ferry_isBuilt : Network.ferry.IsBuilt := by
  refine ⟨_, ?_, rfl⟩
  cases h : NetworkDraft.ferry? with
  | error e => exact .empty
  | ok draft => exact NetworkDraft.made_ferry h

/-! ## Two buses in a valley -/

/-- A bus down a valley, and another one that joins its way for a while. A change at the market is promised. -/
def NetworkDraft.valley? : Except DataError NetworkDraft := do
  let upper ← Schedule.uniform ⟨"upper", by decide⟩ #[.hms 8 0 0, .hms 8 10 0, .hms 8 20 0]
  let lower ← Schedule.uniform ⟨"lower", by decide⟩ #[.hms 8 15 0, .hms 8 30 0, .hms 8 45 0]
  let above ← StopPattern.ofStops "above" #[0, 1, 2]
  let below ← StopPattern.ofStops "below" #[1, 2, 3]
  let draft := (((NetworkDraft.empty.addStop "Mill").addStop "Bridge").addStop "Market").addStop "Port"
  let draft ← draft.addRoute ⟨"above", by decide⟩ .bus above [upper] []
  let draft ← draft.addRoute ⟨"below", by decide⟩ .bus below [lower] []
  return draft.addNotice ⟨⟨"upper", by decide⟩, 2, ⟨"lower", by decide⟩, 1, ⟨.guaranteed, .preferred⟩⟩

theorem NetworkDraft.made_valley {draft : NetworkDraft} (h : valley? = .ok draft) : draft.Made := by
  obtain ⟨upper, -, h⟩ := of_bind_eq_ok h
  obtain ⟨lower, -, h⟩ := of_bind_eq_ok h
  obtain ⟨above, -, h⟩ := of_bind_eq_ok h
  obtain ⟨below, -, h⟩ := of_bind_eq_ok h
  obtain ⟨draft', hfirst, h⟩ := of_bind_eq_ok h
  obtain ⟨draft'', hsecond, h⟩ := of_bind_eq_ok h
  obtain rfl := Except.ok.inj h
  have hstops : (((NetworkDraft.empty.addStop "Mill").addStop "Bridge").addStop "Market").addStop "Port" |>.Made :=
    .addStop _ (.addStop _ (.addStop _ (.addStop _ .empty)))
  exact .addNotice _ (.addRoute (.addRoute hstops (by simp) hfirst) (by simp) hsecond)

/-- The finished network. -/
def Network.valley : Network := (NetworkDraft.valley?.toOption.getD .empty).finish

theorem Network.valley_isBuilt : Network.valley.IsBuilt := by
  refine ⟨_, ?_, rfl⟩
  cases h : NetworkDraft.valley? with
  | error e => exact .empty
  | ok draft => exact NetworkDraft.made_valley h

end JourneyPlanner
