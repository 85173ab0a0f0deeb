import JourneyPlanner.Proofs.Fares
/-!
# Riding a route

A passenger boards at one position from an arrival of the log and alights at every position after it.
On a route that keeps order (`Route.Fifo`) nobody arrives later for staying in the place of somebody
else, so each position is reached as early as by any run that could be caught (`Task.Ridden`), and at no
higher cost where rides are priced evenly.
-/
namespace JourneyPlanner

open ArrivalStore (log round changes truncations)

/-- No scheduled trip overtakes another one: whichever leaves a position no later arrives no later
anywhere after it. There are no headway services. -/
structure Route.Fifo (route : Route) : Prop where
  services : route.services = #[]
  arrival_le : ∀ a ∈ route.trips, ∀ b ∈ route.trips, ∀ p q, p < q → q < route.pattern.size →
    a.departure p ≤ b.departure p → a.arrival q ≤ b.arrival q

namespace Route.Fifo

variable {route : Route} {run : Run}

/-- A route that keeps order offers scheduled trips only. -/
theorem exists_trip (h : route.Fifo) (hrun : route.Offers run) :
    ∃ i trip, route.trips[i]? = some trip ∧ run = Run.ofTrip i trip := by
  cases hrun with
  | scheduled htrip => exact ⟨_, _, htrip, rfl⟩
  | headway hservice _ =>
    rw [h.services] at hservice
    cases hservice

theorem resolves (h : route.Fifo) (hrun : route.Offers run) : route.run? run.ref = some run := by
  refine hrun.resolves fun service first href => ?_
  obtain ⟨i, trip, -, rfl⟩ := h.exists_trip hrun
  cases href

theorem run_le (h : route.Fifo) {a b : Run} (ha : route.Offers a) (hb : route.Offers b) {p q : Position} (hpq : p < q)
    (hq : q < route.pattern.size) (hle : a.departure p ≤ b.departure p) : a.arrival q ≤ b.arrival q := by
  obtain ⟨i, s, hs, rfl⟩ := h.exists_trip ha
  obtain ⟨j, t, ht, rfl⟩ := h.exists_trip hb
  rw [Run.departure_ofTrip, Run.departure_ofTrip] at hle
  rw [Run.arrival_ofTrip, Run.arrival_ofTrip]
  exact h.arrival_le _ (Array.mem_of_getElem? hs) _ (Array.mem_of_getElem? ht) p q hpq hq hle

end Route.Fifo

namespace Task

variable {σ : Type} [ArrivalStore σ] [LawfulStore σ] {task : Task} {earliest : Time} {p p' : Progress σ}

variable {route : Route} {k : Nat}

/-- The passenger has boarded the route at a position before `limit`, from an arrival of the log. -/
inductive Boarded (σ : Type) [ArrivalStore σ] [LawfulStore σ] (task : Task) (earliest : Time)
    (l : ArrivalLog) (k : Nat) (route : Route) (limit : Position) : Rider → Prop
  | intro {id : Nat} {a : Arrival} {last : Option AlightedTrip} {i : Position} {run : Run} :
      l.get? id = .ok a → task.Traces l earliest a last → i < limit → route.pattern.stop i = a.stop →
      task.board? route i a last = some run → LawfulStore.Tallies σ (a.rides + 1) k →
      Boarded σ task earliest l k route limit (task.riderOn route i id a run)

theorem Boarded.mono {l l' : ArrivalLog} {limit limit' : Position} {rider : Rider}
    (h : Boarded σ task earliest l k route limit rider) (hl : l.Extends l') (hle : limit ≤ limit') :
    Boarded σ task earliest l' k route limit' rider := by
  cases h with
  | intro hget htraces hi hstop hboard htallies =>
    exact .intro (hl _ _ hget) (htraces.mono hl (Time.le_refl _)) (Nat.lt_of_lt_of_le hi hle) hstop hboard
      htallies

theorem Boarded.boards {l : ArrivalLog} {limit : Position} {rider : Rider}
    (h : Boarded σ task earliest l k route limit rider) : task.Boards l route rider ∧ rider.boardPosition < limit := by
  cases h with
  | intro hget htraces hi hstop hboard _ => exact ⟨.intro hget htraces.alighted?_eq hstop hboard, hi⟩

/-- The route offers the run that the passenger is on. -/
theorem Boarded.offers (hready : task.Ready) {l : ArrivalLog} {limit : Position} {rider : Rider}
    (h : Boarded σ task earliest l k route limit rider)
    (hroute : task.network.routes[route.index]? = some route) (hlimit : limit ≤ route.pattern.size) :
    route.Offers rider.run := by
  cases h with
  | intro _ _ hi _ hboard _ =>
    exact (board?_spec hready.network hroute (Nat.lt_of_lt_of_le hi hlimit) hboard).1

/-- The arrival of a passenger may be proposed. -/
theorem Boarded.proposal (hready : task.Ready) {limit q : Position} {rider : Rider}
    (h : Boarded σ task earliest (log p.store) k route limit rider)
    (hroute : task.network.routes[route.index]? = some route) (hq : limit ≤ q) (hsize : q < route.pattern.size)
    (hk : k ≤ task.settings.maxRounds) (hround : round p.store = k) :
    task.Proposal earliest p (task.alight route k q (route.pattern.stop q) rider) := by
  cases h with
  | @intro id a last i run hget htraces hi hstop hboard htallies =>
    have hle := LawfulStore.rides_le htallies
    have hrides : addRides a.rides 1 = a.rides + 1 := by
      have := hready.settings.maxRounds_le
      unfold addRides
      omega
    refine ⟨⟨_, .ride hget htraces hroute (Nat.lt_of_lt_of_le hi hq) hsize hstop hboard (Nat.le_trans hle hk)⟩,
      hround.symm, ?_⟩
    show LawfulStore.Tallies σ (addRides a.rides 1) k
    rw [hrides]
    exact htallies

/-- Every passenger, old or new, is there afterwards or has been made redundant. -/
theorem addRider_spec (outrides : Rider → Rider → Position → Bool) (i : Position) (riders : List Rider)
    (rider : Rider) :
    (∀ r ∈ addRider outrides i riders rider, r ∈ riders ∨ r = rider) ∧
      ∀ r, r ∈ riders ∨ r = rider → ∃ r' ∈ addRider outrides i riders rider, r' = r ∨ outrides r' r i = true := by
  unfold addRider
  split
  · rename_i hany
    refine ⟨fun r hr => .inl hr, fun r hr => ?_⟩
    rcases hr with hr | rfl
    · exact ⟨r, hr, .inl rfl⟩
    · obtain ⟨r', hr', hout⟩ := List.any_eq_true.1 hany
      exact ⟨r', hr', .inr hout⟩
  · refine ⟨fun r hr => ?_, fun r hr => ?_⟩
    · rcases List.mem_append.1 hr with hr | hr
      · exact .inl (List.mem_filter.1 hr).1
      · exact .inr (List.mem_singleton.1 hr)
    · rcases hr with hr | rfl
      · cases hout : outrides rider r i with
        | true => exact ⟨rider, by simp, .inr hout⟩
        | false => exact ⟨r, List.mem_append_left _ (List.mem_filter.2 ⟨hr, by rw [hout]; rfl⟩), .inl rfl⟩
      · exact ⟨r, by simp, .inl rfl⟩

/-- The passenger leaves position `i` no later than `departure`, and where rides are priced evenly pays no more
than `cost q` until a position `q` after it. -/
def GoesBy (σ : Type) [ArrivalStore σ] [LawfulStore σ] (task : Task) (l : ArrivalLog) (route : Route) (i : Position)
    (departure : Time) (cost : Position → Int) (r : Rider) : Prop :=
  r.run.departure i ≤ departure ∧
    (task.Weighs σ l → ∀ q, i < q → q < route.pattern.size → task.paid route q r ≤ cost q)

/-- Some passenger does so. -/
def LeavesBy (σ : Type) [ArrivalStore σ] [LawfulStore σ] (task : Task) (l : ArrivalLog) (route : Route)
    (riders : List Rider) (i : Position) (departure : Time) (cost : Position → Int) : Prop :=
  ∃ r ∈ riders, task.GoesBy σ l route i departure cost r

section LeavesBy

variable {l : ArrivalLog} {riders : List Rider} {i : Position} {departure : Time} {cost : Position → Int}

theorem goesBy_self (r : Rider) : task.GoesBy σ l route i (r.run.departure i) (fun q => task.paid route q r) r :=
  ⟨Time.le_refl _, fun _ _ _ _ => Int.le_refl _⟩

theorem GoesBy.mono {r : Rider} (h : task.GoesBy σ l route i departure cost r) {departure' : Time}
    {cost' : Position → Int} (hle : departure ≤ departure')
    (hcost : task.Weighs σ l → ∀ q, i < q → q < route.pattern.size → cost q ≤ cost' q) :
    task.GoesBy σ l route i departure' cost' r :=
  ⟨Time.le_trans h.1 hle, fun hweighs q hiq hq => Int.le_trans (h.2 hweighs q hiq hq) (hcost hweighs q hiq hq)⟩

theorem LeavesBy.mono (h : task.LeavesBy σ l route riders i departure cost) {departure' : Time}
    {cost' : Position → Int} (hle : departure ≤ departure')
    (hcost : task.Weighs σ l → ∀ q, i < q → q < route.pattern.size → cost q ≤ cost' q) :
    task.LeavesBy σ l route riders i departure' cost' := by
  obtain ⟨r, hr, h⟩ := h
  exact ⟨r, hr, h.mono hle hcost⟩

/-- Nobody who boards makes another one redundant who leaves earlier or pays less. -/
theorem LeavesBy.addRider (hroute : route ∈ task.network.routes) {rider : Rider}
    (hboards : ∀ r, r ∈ riders ∨ r = rider → task.Boards l route r ∧ r.boardPosition < i + 1)
    (h : ∃ r, (r ∈ riders ∨ r = rider) ∧ task.GoesBy σ l route i departure cost r) :
    task.LeavesBy σ l route (addRider (ArrivalStore.outrides σ) i riders rider) i departure cost := by
  obtain ⟨r, hr, hgoes⟩ := h
  obtain ⟨hsub, hcover⟩ := addRider_spec (ArrivalStore.outrides σ) i riders rider
  obtain ⟨r', hr', rfl | hout⟩ := hcover r hr
  · exact ⟨r', hr', hgoes⟩
  · refine ⟨r', hr', Time.le_trans (LawfulStore.outrides_le hout) hgoes.1, fun hweighs q hiq hq => ?_⟩
    obtain ⟨hboards', hpos'⟩ := hboards r' (hsub r' hr')
    obtain ⟨hboards, hpos⟩ := hboards r hr
    exact Int.le_trans (hweighs.passengers route hroute r' r hboards' hboards i q (Nat.le_of_lt_succ hpos')
      (Nat.le_of_lt_succ hpos) hiq hq hout) (hgoes.2 hweighs q hiq hq)

end LeavesBy

/-- What boarding from the arrivals `ids` makes of the passengers. None is lost to one that leaves later. -/
structure BoardedAll (task : Task) (earliest : Time) (p : Progress σ) (k : Nat) (route : Route) (i : Position)
    (riders : List Rider) (ids : List Nat) (riders' : List Rider) : Prop where
  boarded : ∀ r ∈ riders', Boarded σ task earliest (log p.store) k route (i + 1) r
  old : ∀ departure cost, task.LeavesBy σ (log p.store) route riders i departure cost →
    task.LeavesBy σ (log p.store) route riders' i departure cost
  new : ∀ id ∈ ids, ∀ a last run, (log p.store).get? id = .ok a → task.Traces (log p.store) earliest a last →
    task.board? route i a last = some run → task.LeavesBy σ (log p.store) route riders' i (run.departure i)
      fun q => task.paid route q (task.riderOn route i id a run)

section Boarding

variable {i : Position} {riders riders' : List Rider} {done : List Nat} {id : Nat} {a : Arrival}
variable {last : Option AlightedTrip}

/-- From some arrivals no run can be boarded. -/
theorem BoardedAll.miss (h : task.BoardedAll earliest p k route i riders done riders')
    (hget : (log p.store).get? id = .ok a) (htraces : task.Traces (log p.store) earliest a last)
    (hboard : task.board? route i a last = none) :
    task.BoardedAll earliest p k route i riders (done ++ [id]) riders' := by
  refine ⟨h.boarded, h.old, fun id' hid' a' last' run' hget' htraces' hboard' => ?_⟩
  rcases List.mem_append.1 hid' with hid' | hid'
  · exact h.new id' hid' a' last' run' hget' htraces' hboard'
  · rw [List.mem_singleton.1 hid'] at hget'
    obtain rfl := ArrivalLog.get?_inj hget' hget
    obtain rfl := htraces'.last_eq htraces
    rw [hboard] at hboard'
    cases hboard'

/-- From the others a passenger boards the run that the model looks up. -/
theorem BoardedAll.board (h : task.BoardedAll earliest p k route i riders done riders')
    (hroute : route ∈ task.network.routes) (hget : (log p.store).get? id = .ok a)
    (htraces : task.Traces (log p.store) earliest a last)
    (hstop : a.stop = route.pattern.stop i) (htallies : LawfulStore.Tallies σ (a.rides + 1) k) {run : Run}
    (hboard : task.board? route i a last = some run) :
    task.BoardedAll earliest p k route i riders (done ++ [id])
      (addRider (ArrivalStore.outrides σ) i riders' (task.riderOn route i id a run)) := by
  have hnew : ∀ r, r ∈ riders' ∨ r = task.riderOn route i id a run →
      Boarded σ task earliest (log p.store) k route (i + 1) r := by
    rintro r (hr | rfl)
    · exact h.boarded r hr
    · exact .intro hget htraces (Nat.lt_succ_self i) hstop.symm hboard htallies
  have hboards := fun r hr => (hnew r hr).boards
  refine ⟨fun r hr => hnew r ((addRider_spec _ _ _ _).1 r hr), fun departure cost hold => ?_,
    fun id' hid' a' last' run' hget' htraces' hboard' => ?_⟩
  · obtain ⟨r, hr, hgoes⟩ := h.old departure cost hold
    exact .addRider hroute hboards ⟨r, .inl hr, hgoes⟩
  · rcases List.mem_append.1 hid' with hid' | hid'
    · obtain ⟨r, hr, hgoes⟩ := h.new id' hid' a' last' run' hget' htraces' hboard'
      exact .addRider hroute hboards ⟨r, .inl hr, hgoes⟩
    · obtain rfl := List.mem_singleton.1 hid'
      obtain rfl := ArrivalLog.get?_inj hget' hget
      obtain rfl := htraces'.last_eq htraces
      obtain rfl := Option.some.inj (hboard'.symm.trans hboard)
      have hself : task.GoesBy σ (log p.store) route i (run'.departure i)
          (fun q => task.paid route q (task.riderOn route i id' a' run')) (task.riderOn route i id' a' run') :=
        goesBy_self (task.riderOn route i id' a' run')
      exact .addRider hroute hboards ⟨_, .inr rfl, hself⟩

theorem boardAll_gives (hv : task.Valid earliest p) (hroute : route ∈ task.network.routes) {ids : List Nat}
    (hids : ∀ id ∈ ids, ∃ a, (log p.store).get? id = .ok a ∧ a.stop = route.pattern.stop i ∧
      LawfulStore.Tallies σ (a.rides + 1) k)
    (hriders : ∀ r ∈ riders, Boarded σ task earliest (log p.store) k route (i + 1) r) :
    GivesInRange (task.boardAll route i p.store riders ids) (task.BoardedAll earliest p k route i riders ids) := by
  unfold boardAll
  apply givesUnless_foldlM (P := task.BoardedAll earliest p k route i riders) ids riders
  · exact ⟨hriders, fun _ _ h => h, fun id hid => by cases hid⟩
  · intro done id rest riders' hsplit h
    obtain ⟨a, hget, hstop, htallies⟩ := hids id (by simp [hsplit])
    obtain ⟨last, htraces⟩ := hv.traces id a hget
    rw [riderFrom?_eq hget htraces]
    split
    · cases hboard : task.board? route i a last with
      | none => exact givesUnless_pure (h.miss hget htraces hboard)
      | some run => exact givesUnless_pure (h.board hroute hget htraces hstop htallies hboard)
    · exact .inr ⟨_, rfl, rfl⟩

end Boarding

/-- The run can be caught at position `i` from an arrival that the round may board from, after the
usual slack. That one is no worse to board from than the arrival `a`. -/
structure Catches (task : Task) (p : Progress σ) (route : Route) (i : Position) (run : Run) (a : Arrival) : Prop where
  offers : route.Offers run
  boardable : task.pricing.boardable run.schedule = true
  rides_lt : a.rides < task.settings.maxRounds
  hands : (log p.store).Hands (ArrivalStore.boardable p.store (route.pattern.stop i)) fun b =>
    task.settings.boardingFloor b.time b.rides ≤ run.departure i ∧ (0 < b.rides → 0 < a.rides) ∧
      (LawfulStore.Heeds σ → b.cost ≤ a.cost)

theorem Catches.of_follows {i : Position} {run : Run} {a : Arrival} (h : task.Catches p route i run a)
    (hf : task.Follows earliest p p') (hroom : truncations p'.store = 0) : task.Catches p' route i run a where
  offers := h.offers
  boardable := h.boardable
  rides_lt := h.rides_lt
  hands := by
    rw [hf.boardable_eq hroom]
    exact h.hands.mono hf.log_extends fun _ h => h

/-- Someone among the passengers arrives at each position from `i` on no later than any run that could
be caught before `i`, and where rides are priced evenly pays no more. -/
def Ahead (task : Task) (p p' : Progress σ) (route : Route) (i : Position) (riders : List Rider) : Prop :=
  ∀ j run a, j < i → task.Catches p route j run a → ∀ q, i ≤ q → q < route.pattern.size →
    ∃ r ∈ riders, r.run.arrival q ≤ run.arrival q ∧
      (task.Weighs σ (log p'.store) → task.paid route q r ≤ a.cost + task.fare a.rides route run j q)

/-- Each position before `i` has been reached no later than by any run that could be caught before. -/
def Ridden (task : Task) (p p' : Progress σ) (k : Nat) (route : Route) (i : Position) : Prop :=
  ∀ j run a, task.Catches p route j run a → ∀ q, j < q → q < i → task.request.isTooLate (run.arrival q) = false →
    (log p'.store).Reaches (task.Weighs σ (log p'.store)) (route.pattern.stop q) (run.arrival q)
      (a.cost + task.fare a.rides route run j q) k true

theorem Ridden.mono {p1 p2 : Progress σ} {i : Position} (h : task.Ridden p p1 k route i)
    (hlog : (log p1.store).Extends (log p2.store)) : task.Ridden p p2 k route i :=
  fun j run a hcatch q hjq hqi hlate => (h j run a hcatch q hjq hqi hlate).mono hlog fun hweighs => hweighs.mono hlog

/-- Everyone alights at position `i`, in time for whatever could be caught before. -/
theorem Ridden.alight {p1 p2 : Progress σ} {i : Position} {riders : List Rider} (h : task.Ridden p p1 k route i)
    (hahead : task.Ahead p p1 route i riders) (hi : i < route.pattern.size)
    (hlog : (log p1.store).Extends (log p2.store))
    (hreached : ∀ r ∈ riders, task.Reached p2 (task.alight route k i (route.pattern.stop i) r)) :
    task.Ridden p p2 k route (i + 1) := by
  intro j run a hcatch q hjq hqi hlate
  rcases Nat.lt_or_eq_of_le (Nat.le_of_lt_succ hqi) with hqi | rfl
  · exact h.mono hlog j run a hcatch q hjq hqi hlate
  · obtain ⟨r, hr, hle, hpaid⟩ := hahead j run a hjq hcatch q (Nat.le_refl q) hi
    have hreached := (hreached r hr (isTooLate_mono hlate hle)).mono (ArrivalLog.extends_refl _)
      (fun hweighs : task.Weighs σ (log p2.store) => hweighs.heeds)
    exact hreached.le hle (fun hweighs => hpaid (hweighs.mono hlog)) (Nat.le_refl k)

/-- On a route that keeps order the passengers stay ahead when others board at position `i`. -/
theorem Ahead.board {p1 p2 : Progress σ} {i : Position} {riders riders' : List Rider}
    (h : task.Ahead p p1 route i riders) (hfifo : route.Fifo) (hlog : (log p1.store).Extends (log p2.store))
    (hriders : ∀ r ∈ riders, route.Offers r.run) (hriders' : ∀ r ∈ riders', route.Offers r.run)
    (hold : ∀ departure cost, task.LeavesBy σ (log p2.store) route riders i departure cost →
      task.LeavesBy σ (log p2.store) route riders' i departure cost)
    (hnew : ∀ run a, task.Catches p route i run a → task.LeavesBy σ (log p2.store) route riders' i (run.departure i)
      fun q => a.cost + task.fare a.rides route run i q) :
    task.Ahead p p2 route (i + 1) riders' := by
  intro j run a hj hcatch q hq hsize
  -- Whoever leaves this position no later arrives no later at the ones after it.
  have hfrom : ∀ run' cost, route.Offers run' →
      task.LeavesBy σ (log p2.store) route riders' i (run'.departure i) cost →
      ∃ r ∈ riders', r.run.arrival q ≤ run'.arrival q ∧
        (task.Weighs σ (log p2.store) → task.paid route q r ≤ cost q) := by
    rintro run' cost hoffers ⟨r, hr, hle, hpaid⟩
    exact ⟨r, hr, hfifo.run_le (hriders' r hr) hoffers hq hsize hle, fun hweighs => hpaid hweighs q hq hsize⟩
  rcases Nat.lt_or_eq_of_le (Nat.le_of_lt_succ hj) with hj | rfl
  · obtain ⟨r, hr, hle, hpaid⟩ := h j run a hj hcatch q (Nat.le_of_succ_le hq) hsize
    obtain ⟨r', hr', hle', hpaid'⟩ := hfrom r.run _ (hriders r hr) (hold _ _ ⟨r, hr, goesBy_self r⟩)
    exact ⟨r', hr', Time.le_trans hle' hle, fun hweighs =>
      Int.le_trans (hpaid' hweighs) (hpaid (hweighs.mono hlog))⟩
  · exact hfrom run _ hcatch.offers (hnew run a hcatch)

/-- From an arrival that may be boarded from, a run is boarded that leaves no later than any that could be
caught. -/
theorem Catches.leavesBy (hready : task.Ready) (hroute : task.network.routes[route.index]? = some route)
    (hfifo : route.Fifo) (hentries : task.network.connections.entries = []) (hv : task.Valid earliest p) {i : Position}
    (hi : i < route.pattern.size) (hk : k ≤ task.settings.maxRounds) {riders riders' : List Rider} {ids : List Nat}
    (hids : ArrivalStore.boardable p.store (route.pattern.stop i) = .ok ids)
    (hsound : ∀ id ∈ ids, ∃ a, (log p.store).get? id = .ok a ∧ a.stop = route.pattern.stop i ∧
      LawfulStore.Tallies σ (a.rides + 1) k)
    (hboarded : task.BoardedAll earliest p k route i riders ids riders') {run : Run} {a : Arrival}
    (h : task.Catches p route i run a) : task.LeavesBy σ (log p.store) route riders' i (run.departure i)
      fun q => a.cost + task.fare a.rides route run i q := by
  obtain ⟨ids', hids', id, hid, b, hget, hfloor, hrides, hcost⟩ := h.hands
  rw [hids] at hids'
  obtain rfl := Except.ok.inj hids'
  obtain ⟨last, htraces⟩ := hv.traces id b hget
  obtain ⟨run', hboard, hle⟩ : ∃ run', task.board? route i b last = some run' ∧
      run'.departure i ≤ run.departure i := by
    obtain ⟨j, trip, htrip, rfl⟩ := hfifo.exists_trip h.offers
    exact board?_le hready.network hroute hi ⟨.scheduled htrip, h.boardable,
      mayBoard_of_floor (boardingRule?_of_entries hentries last route i _) hfloor⟩
  obtain ⟨hoffers, haccepts, -⟩ := board?_spec hready.network hroute hi hboard
  refine (hboarded.new id hid b last run' hget htraces hboard).mono hle fun hweighs q hiq hq => ?_
  -- The search tallies one ride more for whoever boards.
  have hfew : b.rides < task.settings.maxRounds := by
    obtain ⟨b', hget', -, htallies⟩ := hsound id hid
    obtain rfl := ArrivalLog.get?_inj hget' hget
    exact Nat.le_trans (LawfulStore.rides_le htallies) hk
  rw [hweighs.paid_riderOn hfew]
  exact Int.add_le_add (hcost hweighs.heeds) (hweighs.fare_le (Array.mem_of_getElem? hroute) hoffers h.offers haccepts
    h.boardable hiq hq hle hrides h.rides_lt)

/-- What is known after the positions before `i` have been scanned, on a route that keeps order. -/
structure Scanned (task : Task) (earliest : Time) (p : Progress σ) (k : Nat) (route : Route) (i : Position)
    (state : Progress σ × List Rider) : Prop where
  follows : task.Follows earliest p state.1
  riders : ∀ r ∈ state.2, Boarded σ task earliest (log state.1.store) k route i r
  ahead : route.Fifo → task.network.connections.entries = [] → truncations state.1.store = 0 →
    task.Ahead p state.1 route i state.2
  ridden : route.Fifo → task.network.connections.entries = [] → truncations state.1.store = 0 →
    task.Ridden p state.1 k route i

theorem scanPosition_gives (hready : task.Ready) (hroute : task.network.routes[route.index]? = some route)
    (hk : k ≤ task.settings.maxRounds) (hround : round p.store = k) {i : Position}
    (hi : i < route.pattern.size) {state : Progress σ × List Rider}
    (h : task.Scanned earliest p k route i state) :
    GivesInRange (task.scanPosition earliest route k state (route.pattern.stop i, i))
      (task.Scanned earliest p k route (i + 1)) := by
  obtain ⟨p1, riders⟩ := state
  obtain ⟨hfollows, hboarded, hahead, hridden⟩ := h
  simp only at hfollows hboarded hahead hridden
  have hround1 : round p1.store = k := hfollows.round_eq.trans hround
  have hproposals : ∀ a ∈ riders.map (task.alight route k i (route.pattern.stop i)),
      task.Proposal earliest p1 a := by
    intro a ha
    obtain ⟨r, hr, rfl⟩ := List.mem_map.1 ha
    exact (hboarded r hr).proposal hready hroute (Nat.le_refl i) hi hk hround1
  unfold scanPosition
  apply (offerAll_gives hready hfollows.valid _ hproposals).unless.bind
  rintro p2 ⟨hfollows2, hreached, _⟩
  have hfollows' := hfollows.trans hfollows2
  have hboarded2 : ∀ r ∈ riders, Boarded σ task earliest (log p2.store) k route (i + 1) r := fun r hr =>
    (hboarded r hr).mono hfollows2.log_extends (Nat.le_succ i)
  have hridden2 : route.Fifo → task.network.connections.entries = [] → truncations p2.store = 0 →
      task.Ridden p p2 k route (i + 1) := fun hfifo hentries hroom =>
    (hridden hfifo hentries (hfollows2.room hroom)).alight (hahead hfifo hentries (hfollows2.room hroom)) hi
      hfollows2.log_extends fun r hr => hreached _ (List.mem_map_of_mem hr)
  split
  · -- Nobody boards at the last position.
    rename_i hlast
    refine givesUnless_pure ⟨hfollows', hboarded2, fun _ _ _ j run _ _ _ q hq hsize => ?_, hridden2⟩
    exact absurd hlast (Nat.ne_of_lt (Nat.lt_sub_of_add_lt (Nat.lt_of_le_of_lt hq hsize)))
  · obtain ⟨ids, hids, hsound⟩ :=
      LawfulStore.boardable_gives hfollows'.valid.good _ (hready.network.stop_lt hroute hi)
    rw [hids]
    rw [hfollows'.round_eq.trans hround] at hsound
    apply (boardAll_gives hfollows'.valid (Array.mem_of_getElem? hroute) hsound hboarded2).bind
    intro riders' hboarded'
    refine givesUnless_pure ⟨hfollows', hboarded'.boarded, fun hfifo hentries hroom => ?_, hridden2⟩
    apply (hahead hfifo hentries (hfollows2.room hroom)).board hfifo hfollows2.log_extends
    · exact fun r hr => (hboarded2 r hr).offers hready hroute hi
    · exact fun r hr => (hboarded'.boarded r hr).offers hready hroute hi
    · exact hboarded'.old
    · intro run a hcatch
      exact (hcatch.of_follows hfollows' hroom).leavesBy hready hroute hfifo hentries hfollows'.valid hi hk hids hsound
        hboarded'

/-- Riding a route takes everyone along who can be, on a route that keeps order. -/
theorem scanRoute_gives (hready : task.Ready) (hv : task.Valid earliest p) (hk : k ≤ task.settings.maxRounds)
    (hround : round p.store = k) {index : RouteIndex} (hroute : task.network.routes[index]? = some route) :
    GivesInRange (task.scanRoute earliest k p index) fun p' => task.Follows earliest p p' ∧
      (route.Fifo → task.network.connections.entries = [] → truncations p'.store = 0 →
        task.Ridden p p' k route route.pattern.size) := by
  have hindex := hready.network.route_index index route hroute
  rw [← hindex] at hroute
  unfold scanRoute Network.route?
  rw [← hindex, hroute]
  show GivesInRange (route.pattern.stops.toList.zipIdx.foldlM (task.scanPosition earliest route k) (p, []) >>= _) _
  refine GivesUnless.bind (P := task.Scanned earliest p k route route.pattern.stops.toList.length) ?_ ?_
  · refine givesUnless_foldlM_zipIdx (P := task.Scanned earliest p k route) _ _ ?_ ?_
    · exact ⟨.refl hv, fun r hr => (by cases hr), fun _ _ _ j _ _ hj => absurd hj (Nat.not_lt_zero j),
        fun _ _ _ j _ _ _ q _ hq => absurd hq (Nat.not_lt_zero q)⟩
    · intro i hi state hstate
      rw [Array.length_toList] at hi
      have hscan := scanPosition_gives hready hroute hk hround hi hstate
      rw [StopPattern.stop_eq_getElem hi] at hscan
      exact hscan
  · intro state hstate
    exact givesUnless_pure ⟨hstate.follows, hstate.ridden⟩

end Task

end JourneyPlanner
