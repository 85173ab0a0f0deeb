import JourneyPlanner.Proofs.Completeness
import JourneyPlanner.Proofs.EarliestHistory
import JourneyPlanner.Proofs.SearchHistory
/-!
# Arrivals of later departures do no harm

A search over a range of departures keeps the arrivals of the departures that it has run before, which are
later ones. On a plain network this changes nothing for the earliest arrivals: after each iteration the
store tells for every stop and every number of rides the earliest time at which a traveller can be there
who leaves at the departure of the iteration or later (`Task.IsBest`). So does the store of a search that
tries no other departure, and there is only one such time (`Network.bestTime_reused`).
-/
namespace JourneyPlanner

open ArrivalStore (log)

namespace Task

variable {task : Task} {earliest departure : Time} {stop : Stop} {k : Nat}

/-! ## The best time at a stop -/

/-- The earliest time at which a traveller can be at the stop who leaves the origin at `earliest` or later
and takes at most `k` rides. There is none only if nobody can be there. -/
def IsBest (task : Task) (earliest : Time) (stop : Stop) (k : Nat) : Option Time → Prop
  | none => ∀ s, task.Reachable earliest s → s.stop = stop → ¬ s.rides ≤ k
  | some time => (∃ s, task.Reachable earliest s ∧ s.stop = stop ∧ s.rides ≤ k ∧ s.time = time) ∧
      ∀ s, task.Reachable earliest s → s.stop = stop → s.rides ≤ k → time ≤ s.time

theorem IsBest.unique {best best' : Option Time} (h : task.IsBest earliest stop k best)
    (h' : task.IsBest earliest stop k best') : best = best' := by
  cases best with
  | none =>
    cases best' with
    | none => rfl
    | some time' =>
      obtain ⟨⟨s, hs, hstop, hrides, -⟩, -⟩ := h'
      exact absurd hrides (h s hs hstop)
  | some time =>
    obtain ⟨⟨s, hs, hstop, hrides, htime⟩, hle⟩ := h
    cases best' with
    | none => exact absurd hrides (h' s hs hstop)
    | some time' =>
      obtain ⟨⟨s', hs', hstop', hrides', htime'⟩, hle'⟩ := h'
      have h1 := hle s' hs' hstop' hrides'
      have h2 := hle' s hs hstop hrides
      rw [htime'] at h1
      rw [htime] at h2
      exact congrArg some (Std.le_antisymm h1 h2)

/-! ## Arrivals are of travellers -/

/-- Where an arrival leaves the traveller can be reached. -/
theorem Traces.reachable (hready : task.Ready) (hplain : task.Plain) {l : ArrivalLog}
    (hintime : ∀ id a, l.get? id = .ok a → task.request.isTooLate a.time = false) {a : Arrival}
    {last : Option AlightedTrip} (h : task.Traces l earliest a last) (ha : task.request.isTooLate a.time = false) :
    task.Reachable earliest (a.standing last) := by
  induction h with
  | access hpath _ hearliest hround harrival =>
    obtain ⟨rfl, start, hstart, rfl⟩ := accessArrival?_eq harrival
    obtain ⟨hle, hopen⟩ := StreetPath.earliestStart?_spec hstart
    exact .access (List.mem_of_getElem? hpath) (Time.le_trans hearliest hle) hopen hround ha
  | @ride parent id last route p q run round hparent _ hroute hpq hq hstop hboard hrides ih =>
    obtain ⟨hoffers, hboardable, hmay⟩ := board?_spec hready.network hroute (Nat.lt_trans hpq hq) hboard
    have hresolves := (hplain.fifo route (Array.mem_of_getElem? hroute)).resolves hoffers
    have hadd : addRides parent.rides 1 = parent.rides + 1 := by
      have hmax := hready.settings.maxRounds_le
      unfold addRides
      omega
    have hstep : task.Step (parent.standing last) _ _ :=
      .ride hroute hoffers hresolves hboardable hpq hq hstop hmay
    have hreachable := (ih (hintime _ _ hparent)).step hstep hrides ha
    unfold Arrival.standing at hreachable ⊢
    rw [← hadd] at hreachable
    exact hreachable
  | @transfer parent id last transfer number round hparent htraces honBoard htransfer ih =>
    have hstep : task.Step (parent.standing last)
        (.transfer
          { source := parent.stop
            target := transfer.target
            departure := parent.time
            arrival := parent.time + transfer.duration
            cost := task.pricing.transferCost transfer
            metres := transfer.metres }) _ :=
      .transfer honBoard (List.mem_of_getElem? htransfer) rfl rfl rfl rfl rfl rfl
    exact (ih (hintime _ _ hparent)).step hstep htraces.rides_le ha

/-! ## The times that the store tells -/

section EarliestArrivals

open EarliestArrivals (Recalls)

variable {p : Progress EarliestArrivals} {calls : List StoreCall}

/-- What the search has kept it has offered in the round it names, and in time. -/
theorem Timely.of_logged {n m : Nat} {s : EarliestArrivals} (htimely : task.Timely calls)
    (h : Recalls n m (StoreCall.offers 0 calls) s) {id : Nat} {a : Arrival} (hget : s.log.get? id = .ok a) :
    (⟨a.round, a⟩ : Offer) ∈ StoreCall.offers 0 calls ∧ task.request.isTooLate a.time = false := by
  obtain ⟨o, ho, rfl⟩ := h.logged id a hget
  obtain ⟨hround, hlate⟩ := htimely 0 o ho
  exact ⟨by rw [hround]; exact ho, hlate⟩

/-- Nobody is at a stop before all that the search has offered there. -/
theorem exists_offer_of_reachable (hready : task.Ready) (hplain : task.Plain) (hcompleted : task.Completed earliest p)
    (hseeded : task.Seeded earliest p task.settings.maxRounds) {n m : Nat} (htimely : task.Timely calls)
    (hrecalls : Recalls n m (StoreCall.offers 0 calls) p.store) {s : Standing} (hs : task.Reachable earliest s) :
    ∃ o, Offer.At (StoreCall.offers 0 calls) s.stop false o ∧ o.round ≤ s.rides ∧ o.arrival.time ≤ s.time := by
  obtain ⟨_, hs⟩ := hs.exists_cost
  obtain ⟨id, a, hget, hstop, htime, -, hround, -⟩ := reaches_of_reachable hready hplain hcompleted hseeded rfl hs
  obtain ⟨ho, -⟩ := htimely.of_logged hrecalls hget
  exact ⟨⟨a.round, a⟩, ⟨ho, hstop, fun h => by cases h⟩, hround, htime⟩

/-- After the iteration for a departure the store tells the best times. -/
theorem exists_isBest (hready : task.Ready) (hplain : task.Plain) (hcompleted : task.Completed earliest p)
    (hseeded : task.Seeded earliest p task.settings.maxRounds)
    (hmakes : task.Makes (EarliestArrivals.init task.network.stopCount task.settings.maxRounds) p.store)
    (hstop : stop < task.network.stopCount) (k : Nat) :
    ∃ best, ArrivalStore.bestTime p.store stop k = .ok best ∧ task.IsBest earliest stop k best := by
  obtain ⟨calls, htimely, hperform⟩ := hmakes
  obtain ⟨hrecalls, -⟩ := EarliestArrivals.recalls_of_performAll hperform
  obtain ⟨rows, hrows⟩ := hrecalls.rows hstop
  have hrow : StopRows.Recalls p.store.log _ rows.any := hrecalls.atStop stop rows hrows false
  have hoffered : ∀ s, task.Reachable earliest s → _ := fun s hs =>
    exists_offer_of_reachable hready hplain hcompleted hseeded htimely hrecalls hs
  refine ⟨(StopRows.earliest rows.any k).map (·.time), ?_, ?_⟩
  · show (p.store.rows? stop).map _ = _
    rw [EarliestArrivals.rows?_eq hrows]
    rfl
  cases he : StopRows.earliest rows.any k with
  | none =>
    rintro s hs rfl hk
    obtain ⟨o, ho, hround, -⟩ := hoffered s hs
    exact hrow.none_of_earliest he o ho (Nat.le_trans hround hk)
  | some mark =>
    obtain ⟨⟨o, ⟨ho, hstop', -⟩, hround, hget, htime⟩, hle⟩ := hrow.of_earliest he
    constructor
    · obtain ⟨last, htraces⟩ := hcompleted.valid.traces _ _ hget
      have hreachable := htraces.reachable hready hplain (fun _ _ hget => (htimely.of_logged hrecalls hget).2)
        (htimely 0 o ho).2
      have hrides := LawfulStore.rides_le (LawfulStore.good_tallies hcompleted.valid.good _ _ hget)
      rw [(htimely 0 o ho).1] at hrides
      exact ⟨_, hreachable, hstop', Nat.le_trans hrides hround, htime.symm⟩
    · rintro s hs rfl hk
      obtain ⟨o', ho', hround', hle'⟩ := hoffered s hs
      exact Time.le_trans (hle o' ho' (Nat.le_trans hround' hk)) hle'

/-! ## One departure after another -/

/-- The departures up to one of them, which comes last. -/
theorem departures_take {i : Nat} (hi : task.departures[i]? = some departure) :
    task.departures.take (i + 1) = task.departures.take i ++ [departure] ∧
      (∀ d ∈ task.departures.take i ++ [departure], d ∈ task.departures) ∧
      (task.departures.take i ++ [departure]).Pairwise fun a b => b ≤ a := by
  have htake : task.departures.take (i + 1) = task.departures.take i ++ [departure] := by
    rw [List.take_add_one, hi]
    rfl
  rw [← htake]
  exact ⟨rfl, fun d hd => List.mem_of_mem_take hd, (departures_spec task).1.sublist (List.take_sublist (i + 1) _)⟩

/-- The iterations for some departures, the latest one first, complete the last one of them. -/
theorem runIterations_concat_gives {σ : Type} [ArrivalStore σ] [LawfulStore σ] {p : Progress σ} (hready : task.Ready)
    (htimeout : task.settings.timeout = none) (done : List Time)
    (hmem : ∀ d ∈ done ++ [departure], d ∈ task.departures)
    (hsorted : (done ++ [departure]).Pairwise fun a b => b ≤ a) (iteration : Nat)
    (h : ∀ d ∈ done ++ [departure], task.Completed d p) :
    GivesInRange (task.runIterations iteration (done ++ [departure]) p) fun r => r.2 = false ∧
      task.Completed departure r.1 ∧ task.Seeded departure r.1 task.settings.maxRounds := by
  induction done generalizing iteration p with
  | nil =>
    have hd : departure ∈ [departure] := List.mem_singleton_self _
    rw [List.nil_append, runIterations]
    apply (runIteration_gives hready (hmem departure hd) (h departure hd) iteration).bind
    rintro ⟨p', timedOut⟩ ⟨-, -, hcompleted, htime⟩
    obtain rfl : timedOut = false := htime htimeout
    exact givesUnless_pure ⟨rfl, hcompleted rfl⟩
  | cons d done ih =>
    rw [List.cons_append] at *
    obtain ⟨hle, hsorted⟩ := List.pairwise_cons.1 hsorted
    obtain ⟨hd, hmem⟩ := List.forall_mem_cons.1 hmem
    rw [runIterations]
    apply (runIteration_gives hready hd (h d List.mem_cons_self) iteration).bind
    rintro ⟨p', timedOut⟩ ⟨-, -, hcompleted, htime⟩
    obtain rfl : timedOut = false := htime htimeout
    obtain ⟨hcompleted, -⟩ := hcompleted rfl
    exact ih hmem hsorted (iteration + 1) fun d' hd' => hcompleted.mono (hle d' hd')

/-- More iterations go on from where the ones before have ended. -/
theorem runIterations_append {σ : Type} [ArrivalStore σ] {p p' : Progress σ} {done : List Time} {iteration : Nat}
    (h : task.runIterations iteration done p = .ok (p', false)) (rest : List Time) :
    task.runIterations iteration (done ++ rest) p = task.runIterations (iteration + done.length) rest p' := by
  induction done generalizing iteration p with
  | nil =>
    cases h
    rfl
  | cons d done ih =>
    rw [runIterations] at h
    obtain ⟨⟨p1, timedOut⟩, hiteration, h⟩ := of_bind_eq_ok h
    cases timedOut with
    | true => cases h
    | false =>
      rw [List.cons_append, runIterations, hiteration, ok_bind, List.length_cons, Nat.add_comm done.length 1,
        ← Nat.add_assoc]
      exact ih h

/-- The last of some iterations, and those before it. -/
theorem of_runIterations_concat {σ : Type} [ArrivalStore σ] {p p' : Progress σ} {done : List Time} {iteration : Nat}
    (h : task.runIterations iteration (done ++ [departure]) p = .ok (p', false)) :
    ∃ p1, task.runIterations iteration done p = .ok (p1, false) ∧
      task.runIteration (iteration + done.length) departure p1 = .ok (p', false) := by
  induction done generalizing iteration p with
  | nil =>
    obtain ⟨⟨p1, timedOut⟩, hiteration, h⟩ := of_bind_eq_ok h
    cases timedOut with
    | true => cases h
    | false =>
      cases h
      exact ⟨p, rfl, hiteration⟩
  | cons d done ih =>
    rw [List.cons_append, runIterations] at h
    obtain ⟨⟨p1, timedOut⟩, hiteration, h⟩ := of_bind_eq_ok h
    cases timedOut with
    | true => cases h
    | false =>
      obtain ⟨p2, hdone, hlast⟩ := ih h
      refine ⟨p2, ?_, ?_⟩
      · rw [runIterations, hiteration, ok_bind]
        exact hdone
      · rw [List.length_cons, Nat.add_comm done.length 1, ← Nat.add_assoc]
        exact hlast

/-- The first iterations of a search, and the rest from where they have ended. -/
theorem runIterations_eq_of_take {σ : Type} [ArrivalStore σ] {p p' : Progress σ} {departures : List Time} {n : Nat}
    (hn : n ≤ departures.length) (h : task.runIterations 0 (departures.take n) p = .ok (p', false)) :
    task.runIterations 0 departures p = task.runIterations n (departures.drop n) p' := by
  have happend := runIterations_append h (departures.drop n)
  rw [List.take_append_drop, List.length_take_of_le hn, Nat.zero_add] at happend
  exact happend

/-- After some iterations of a search the store tells the best times for the last departure. -/
theorem runIterations_isBest (hready : task.Ready) (hplain : task.Plain) (htimeout : task.settings.timeout = none)
    (done : List Time) (hmem : ∀ d ∈ done ++ [departure], d ∈ task.departures)
    (hsorted : (done ++ [departure]).Pairwise fun a b => b ≤ a) :
    GivesInRange (task.runIterations 0 (done ++ [departure])
      ⟨EarliestArrivals.init task.network.stopCount task.settings.maxRounds, .empty, .zero⟩) fun r =>
        r.2 = false ∧ ∀ stop < task.network.stopCount, ∀ k, ∃ best,
          ArrivalStore.bestTime r.1.store stop k = .ok best ∧ task.IsBest departure stop k best := by
  have hgood : LawfulStore.Good task.network.stopCount task.settings.maxRounds
      (EarliestArrivals.init task.network.stopCount task.settings.maxRounds) := EarliestArrivals.good_init _ _
  rcases runIterations_concat_gives hready htimeout done hmem hsorted 0 fun d _ => completed_of_empty hgood rfl d with
    ⟨r, hr, htime, hcompleted, hseeded⟩ | hstops
  · exact .inl ⟨r, hr, htime, fun stop hstop k =>
      exists_isBest hready hplain hcompleted hseeded (makes_of_runIterations hr) hstop k⟩
  · exact .inr hstops

/-- After each iteration the store tells the best times for the departure of the iteration. -/
theorem runIterations_take_isBest (hready : task.Ready) (hplain : task.Plain) (htimeout : task.settings.timeout = none)
    {i : Nat} (hi : task.departures[i]? = some departure) :
    GivesInRange (task.runIterations 0 (task.departures.take (i + 1))
      ⟨EarliestArrivals.init task.network.stopCount task.settings.maxRounds, .empty, .zero⟩) fun r =>
        r.2 = false ∧ ∀ stop < task.network.stopCount, ∀ k, ∃ best,
          ArrivalStore.bestTime r.1.store stop k = .ok best ∧ task.IsBest departure stop k best := by
  obtain ⟨htake, hmem, hsorted⟩ := departures_take hi
  rw [htake]
  exact runIterations_isBest hready hplain htimeout _ hmem hsorted

end EarliestArrivals

/-! ## One departure only -/

/-- The task with other departures: those from `departure` on, in a window of so many seconds. -/
def withDepartures (task : Task) (departure : Time) (window : Int) : Task where
  network := task.network
  settings := { task.settings with window := window }
  request := { task.request with departure := departure }
  pricing := task.pricing
  clock := task.clock

theorem departures_withDepartures_zero (task : Task) (departure : Time) :
    (task.withDepartures departure 0).departures = [departure] := by
  show departuresDownTo departure task.settings.step (departure + max 0 0) = _
  rw [Int.max_self, Time.add_zero, departuresDownTo_of_le _ (Time.le_refl _)]

section WithDepartures

variable {window : Int} {s s' : Standing} {leg : Leg}

theorem Ready.withDepartures (h : task.Ready) : (task.withDepartures departure window).Ready :=
  ⟨h.network, ⟨h.settings.maxRounds_le, h.settings.boardSlack, h.settings.transferSlack⟩, h.access_lt⟩

theorem Plain.withDepartures (h : task.Plain) : (task.withDepartures departure window).Plain := ⟨h.entries, h.fifo⟩

/-- The way of a traveller does not depend on which departures the search tries. -/
theorem Step.withDepartures (h : task.Step s leg s') : (task.withDepartures departure window).Step s leg s' := by
  cases h with
  | ride hroute hoffers hrun hboardable hpq hq hstop hmay =>
    exact .ride hroute hoffers hrun hboardable hpq hq hstop hmay
  | transfer honBoard htransfer hsource htarget harrival hdeparture hcost hmetres =>
    exact .transfer honBoard htransfer hsource htarget harrival hdeparture hcost hmetres

theorem Reachable.withDepartures (h : task.Reachable earliest s) (departure : Time) (window : Int) :
    (task.withDepartures departure window).Reachable earliest s := by
  induction h with
  | access hpath hstart hopen hrides hlate =>
    exact @Reachable.access (task.withDepartures departure window) _ _ _ hpath hstart hopen hrides hlate
  | step _ hstep hrides hlate ih => exact ih.step hstep.withDepartures hrides hlate

theorem reachable_withDepartures :
    (task.withDepartures departure window).Reachable earliest s ↔ task.Reachable earliest s := by
  constructor
  · -- With its own departures instead, it is the task itself again.
    exact fun h => h.withDepartures task.request.departure task.settings.window
  · exact fun h => h.withDepartures departure window

theorem isBest_withDepartures {best : Option Time} :
    (task.withDepartures departure window).IsBest earliest stop k best ↔ task.IsBest earliest stop k best := by
  cases best <;> simp only [IsBest, reachable_withDepartures]

end WithDepartures

/-- A search for one departure tells the best times for it. -/
theorem run_isBest (hready : task.Ready) (hplain : task.Plain) (htimeout : task.settings.timeout = none)
    (departure : Time) :
    GivesInRange ((task.withDepartures departure 0).run
      (EarliestArrivals.init task.network.stopCount task.settings.maxRounds)) fun outcome =>
        ∀ stop < task.network.stopCount, ∀ k, ∃ best,
          ArrivalStore.bestTime outcome.store stop k = .ok best ∧ task.IsBest departure stop k best := by
  have hdepartures := departures_withDepartures_zero task departure
  have hmem : ∀ d ∈ [] ++ [departure], d ∈ (task.withDepartures departure 0).departures := by
    rw [hdepartures]
    exact fun _ h => h
  have hready' : (task.withDepartures departure 0).Ready := hready.withDepartures
  have hruns := runIterations_isBest hready' hplain.withDepartures htimeout [] hmem (List.pairwise_singleton _ _)
  unfold run
  rw [← departures, hdepartures]
  refine hruns.bind fun r ⟨_, hbest⟩ => givesUnless_pure fun stop hstop k => ?_
  obtain ⟨best, heq, hbest⟩ := hbest stop hstop k
  exact ⟨best, heq, isBest_withDepartures.1 hbest⟩

end Task

/-- After each iteration of a search over a range of departures, which goes on with the store of the
iterations before, the store tells the same earliest arrivals as that of a search for its departure alone, if all
sums fit. -/
theorem Network.bestTime_reused {net : Network} (hnet : net.IsBuilt) (hentries : net.connections.entries = [])
    (hfifo : ∀ route ∈ net.routes, route.Fifo) {settings : Settings} (hsettings : settings.check = .ok ())
    (htimeout : settings.timeout = none) {request : Request} (hrequest : request.check net.stopCount = .ok ())
    {i : Nat} {departure : Time}
    (hi : (departureTimes request.departure settings.window settings.step)[i]? = some departure) (clock : Clock) :
    let task := Task.ofRequest net settings request clock
    let store := EarliestArrivals.init net.stopCount settings.maxRounds
    task.runIterations 0 (task.departures.take (i + 1)) ⟨store, .empty, .zero⟩ ≠ .error .sum →
    (task.withDepartures departure 0).run store ≠ .error .sum → ∃ progress outcome,
      task.runIterations 0 (task.departures.take (i + 1)) ⟨store, .empty, .zero⟩ = .ok (progress, false) ∧
      task.runIterations 0 task.departures ⟨store, .empty, .zero⟩ =
        task.runIterations (i + 1) (task.departures.drop (i + 1)) progress ∧
      (task.withDepartures departure 0).run store = .ok outcome ∧
      ∀ stop < net.stopCount, ∀ k ≤ settings.maxRounds, ∃ best,
        ArrivalStore.bestTime progress.store stop k = .ok best ∧
        ArrivalStore.bestTime outcome.store stop k = .ok best := by
  intro task store hsums hsums'
  have hready : task.Ready := Task.ready_of_check hnet hsettings hrequest clock
  have hplain : task.Plain := ⟨hentries, hfifo⟩
  have hi : task.departures[i]? = some departure := hi
  obtain ⟨hlt, -⟩ := List.getElem?_eq_some_iff.1 hi
  obtain ⟨⟨progress, timedOut⟩, hruns, rfl, hbest⟩ :=
    (Task.runIterations_take_isBest hready hplain htimeout hi).gives hsums
  obtain ⟨outcome, hrun, hbest'⟩ := (Task.run_isBest hready hplain htimeout departure).gives hsums'
  refine ⟨progress, outcome, hruns, Task.runIterations_eq_of_take hlt hruns, hrun, fun stop hstop k _ => ?_⟩
  -- Both are the best time, of which there is only one.
  obtain ⟨best, heq, hbest⟩ := hbest stop hstop k
  obtain ⟨best', heq', hbest'⟩ := hbest' stop hstop k
  rw [hbest'.unique hbest] at heq'
  exact ⟨best, heq, heq'⟩

/-- Of two departures for the ferry the earlier one is searched after the later one. -/
theorem Network.ferry_bestTime_reused :
    let settings : Settings := { Settings.standard with window := 60, profile := .standard }
    let task := Task.ofRequest ferry settings .overFerry
    let store := EarliestArrivals.init ferry.stopCount settings.maxRounds
    task.departures = [.hms 8 1 0, .hms 8 0 0] ∧ ∃ progress outcome,
      task.runIterations 0 [.hms 8 1 0, .hms 8 0 0] ⟨store, .empty, .zero⟩ = .ok (progress, false) ∧
      (task.withDepartures (.hms 8 0 0) 0).run store = .ok outcome ∧
      ∀ stop < ferry.stopCount, ∀ k ≤ settings.maxRounds, ∃ best,
        ArrivalStore.bestTime progress.store stop k = .ok best ∧
        ArrivalStore.bestTime outcome.store stop k = .ok best := by
  intro settings task store
  have hdepartures : task.departures = [.hms 8 1 0, .hms 8 0 0] := by decide +kernel
  have hsettings : settings.check = .ok () := Settings.check_of_defect? (by decide +kernel)
  have hi : task.departures[1]? = some (.hms 8 0 0) := by
    rw [hdepartures]
    rfl
  obtain ⟨progress, outcome, hruns, -, hrun, hbest⟩ := bestTime_reused ferry_isBuilt connections_ferry fifo_ferry
    hsettings rfl Request.check_overFerry hi .still (ne_error_of_isSome (by decide +kernel) _)
    (ne_error_of_isSome (by decide +kernel) _)
  have htake : task.departures.take (1 + 1) = [.hms 8 1 0, .hms 8 0 0] := by
    rw [hdepartures]
    rfl
  refine ⟨hdepartures, progress, outcome, ?_, hrun, hbest⟩
  rw [← htake]
  exact hruns

end JourneyPlanner
