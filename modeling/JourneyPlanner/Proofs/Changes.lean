import JourneyPlanner.Proofs.Earliest
import JourneyPlanner.Search.Boarding
/-!
# Boarding under the rules

`Task.MayBoard` says when a passenger may board a run: after the usual slack, or as the rule for the
change says where the table has one. The terms of one boarding allow nothing else, and let no trip leave that
waits.
-/
namespace JourneyPlanner

/-- The call of a run at a position. Headway services have no calls. -/
def RunRef.call? (ref : RunRef) (route : RouteIndex) (p : Position) : Option TripCall :=
  match ref with
  | .scheduled trip => some ⟨route, trip, p⟩
  | .headway .. => none

/-- The rule for the change between two calls. -/
def Network.rule? (net : Network) (left boarded : Option TripCall) : Option ConnectionRule :=
  match left, boarded with
  | some a, some b => (net.connections.lookup? a b).map (·.rule)
  | _, _ => none

/-- Whether a run may be boarded at `departure` by someone who left the last one at `alighted` and is
at the stop from `reached` on. Without a rule the departure must not be before `floor`. -/
def ChangeAllowed (rule : Option ConnectionRule) (floor reached alighted departure : Time) : Prop :=
  match rule with
  | some .notAllowed => False
  | some .guaranteed => True
  | some (.minimumTime secs) => max reached (alighted + secs) ≤ departure
  | none => floor ≤ departure

/-- The rule for boarding a run at position `p` after the trip `last`. -/
def Network.boardingRule? (net : Network) (last : Option AlightedTrip) (route : Route) (p : Position)
    (run : Run) : Option ConnectionRule :=
  net.rule? (last.map (·.call)) (run.ref.call? route.index p)

/-- Whether the run may be boarded at position `p` after an arrival at `reached` with so many rides,
the last of them on the trip `last`. The usual slack is longer after a ride. -/
def Task.MayBoard (task : Task) (last : Option AlightedTrip) (reached : Time) (rides : Nat) (route : Route)
    (p : Position) (run : Run) : Prop :=
  ChangeAllowed (task.network.boardingRule? last route p run)
    (reached + (task.settings.boardSlack + if 0 < rides then task.settings.transferSlack else 0))
    reached (last.elim reached (·.time)) (run.departure p)

theorem Network.boardingRule?_none (net : Network) (route : Route) (p : Position) (run : Run) :
    net.boardingRule? none route p run = none := rfl

theorem Network.boardingRule?_headway (net : Network) (last : Option AlightedTrip) (route : Route)
    (p : Position) {run : Run} {i : Nat} {first : Time} (h : run.ref = .headway i first) :
    net.boardingRule? last route p run = none := by
  unfold boardingRule?
  rw [h]
  cases last <;> rfl

theorem Network.boardingRule?_scheduled (net : Network) (last : AlightedTrip) (route : Route)
    (p : Position) (i : Nat) (trip : Schedule) :
    net.boardingRule? (some last) route p (Run.ofTrip i trip) =
      (net.connections.lookup? last.call ⟨route.index, i, p⟩).map (·.rule) := rfl

/-! ## The terms of one boarding -/

/-- The rule that the terms of a boarding have for a trip is that of the table. -/
theorem Task.rule?_boardingTerms (task : Task) (route : Route) (p : Position) (reached : Time)
    (last : AlightedTrip) (i : Nat) :
    (task.boardingTerms route p reached last).rule? i =
      (task.network.connections.lookup? last.call ⟨route.index, i, p⟩).map (·.rule) := by
  unfold BoardingTerms.rule? boardingTerms ConnectionTable.boarding ConnectionTable.lookup?
  generalize task.network.connections.entries = entries
  induction entries with
  | nil => rfl
  | cons e entries ih =>
    by_cases hkey : e.alight = last.call ∧ e.board.route = route.index ∧ e.board.position = p
    · by_cases htrip : e.board.trip = i
      · have hboard : e.board = ⟨route.index, i, p⟩ := by
          obtain ⟨_, h1, h2⟩ := hkey
          cases hb : e.board with
          | mk r t q =>
            rw [hb] at h1 h2 htrip
            simp_all
        simp [hkey, hboard]
      · have hboard : ¬ e.board = ⟨route.index, i, p⟩ := fun h => htrip (by rw [h])
        simpa [hkey, htrip, hboard] using ih
    · have hboard : ¬ (e.alight = last.call ∧ e.board = ⟨route.index, i, p⟩) := fun ⟨h1, h2⟩ =>
        hkey ⟨h1, by rw [h2], by rw [h2]⟩
      simpa [hkey, hboard] using ih

/-- A trip that waits has the promise as its rule. -/
theorem Task.rule?_of_mem_waiting {task : Task} (hnet : task.network.Sound) {route : Route} {p : Position}
    {reached : Time} {last : AlightedTrip} {i : Nat}
    (h : i ∈ (task.boardingTerms route p reached last).waiting) :
    (task.boardingTerms route p reached last).rule? i = some .guaranteed := by
  simp only [BoardingTerms.waiting] at h
  obtain ⟨⟨k, rule⟩, hmem, rfl⟩ := List.mem_map.1 h
  obtain ⟨hrules, hguar⟩ := List.mem_filter.1 hmem
  obtain rfl : rule = .guaranteed := of_decide_eq_true hguar
  simp only [boardingTerms, ConnectionTable.boarding] at hrules
  obtain ⟨⟨k', terms⟩, hboarding, heq⟩ := List.mem_map.1 hrules
  obtain ⟨e, he, hk⟩ := List.mem_map.1 hboarding
  obtain ⟨hentry, hkey⟩ := List.mem_filter.1 he
  obtain ⟨halight, hroute, hposition⟩ := of_decide_eq_true hkey
  have hboard : e.board = ⟨route.index, k, p⟩ := by
    cases hb : e.board with
    | mk r t q => simp_all
  have hlookup := ConnectionTable.lookup?_of_mem hnet.terms_nodup hentry
  rw [halight, hboard] at hlookup
  rw [rule?_boardingTerms, hlookup]
  simp_all

/-- Where no mark stands, no rule is about the boarding. -/
theorem Network.boardingRule?_unmarked {net : Network} (hnet : net.Sound) {route : Route} {p : Position}
    (hroute : net.routes[route.index]? = some route) (hmark : route.hasTermsAt p = false)
    (last : Option AlightedTrip) (run : Run) : net.boardingRule? last route p run = none := by
  cases last with
  | none => rfl
  | some last =>
    cases href : run.ref with
    | headway i first => exact net.boardingRule?_headway _ route p href
    | scheduled i =>
      have hfind : (net.connections.entries.find? fun x =>
          x.alight = last.call ∧ x.board = (⟨route.index, i, p⟩ : TripCall)) = none := by
        refine List.find?_eq_none.2 fun e he hkey => ?_
        obtain ⟨_, hboard⟩ := of_decide_eq_true hkey
        have hmarked := hnet.terms_marked e he route (by rw [hboard]; exact hroute)
        rw [hboard, hmark] at hmarked
        cases hmarked
      unfold boardingRule? RunRef.call? rule? ConnectionTable.lookup?
      rw [href]
      simp only [Option.map_some, hfind, Option.map_none]

/-- Of some trips the one that leaves first is kept, and the lowest number of several. -/
theorem foldl_earlierTrip_selects (p : Position) (trips : List (Nat × Schedule)) :
    Selects (fun a b => Run.LeavesFirst p (Run.ofTrip a.1 a.2) (Run.ofTrip b.1 b.2)) (· ∈ trips)
      (trips.foldl (earlierTrip p) none) := by
  simp only [Run.leavesFirst_iff, Run.departure_ofTrip]
  induction trips using List.reverseRecOn with
  | nil => exact fun t ht => by cases ht
  | append_singleton trips t ih =>
    rw [List.foldl_append, List.foldl_cons, List.foldl_nil]
    cases hbest : trips.foldl (earlierTrip p) none with
    | none =>
      rw [hbest] at ih
      refine ⟨by simp, fun t' ht' => ?_⟩
      rcases List.mem_append.1 ht' with ht' | ht'
      · exact absurd ht' (ih t')
      · rw [List.mem_singleton.1 ht']
        exact .inr ⟨rfl, Nat.le_refl _⟩
    | some b =>
      rw [hbest] at ih
      obtain ⟨hmem, hfirst⟩ := ih
      -- The new trip is kept just when it comes before the best one.
      have hnew : ∀ t' ∈ trips ++ [t], t' = t ∨ _ := fun t' ht' =>
        (List.mem_append.1 ht').symm.imp List.mem_singleton.1 (hfirst t')
      simp only [Run.ofTrip, RunRef.number] at hnew ⊢
      unfold earlierTrip
      simp only [Time.lt_iff, Time.ext_iff]
      split
      · refine ⟨by simp, fun t' ht' => ?_⟩
        rcases hnew t' ht' with rfl | hle <;> omega
      · split
        · refine ⟨by simp, fun t' ht' => ?_⟩
          rcases hnew t' ht' with rfl | hle <;> omega
        · refine ⟨List.mem_append_left _ hmem, fun t' ht' => ?_⟩
          rcases hnew t' ht' with rfl | hle <;> omega

/-- Of the accepted ones among some trips of a route the one that leaves first is selected. -/
theorem Route.earliestOf_selects {route : Route} {p : Position} {trips : List Nat} {accept : Schedule → Bool} :
    Selects (Run.LeavesFirst p)
      (fun run => ∃ i trip, i ∈ trips ∧ route.trips[i]? = some trip ∧ run = Run.ofTrip i trip ∧ accept trip = true)
      (route.earliestOf p trips accept) := by
  unfold earliestOf
  refine (foldl_earlierTrip_selects p _).map.congr fun run => ?_
  simp only [List.mem_filter, List.mem_filterMap, Option.map_eq_some_iff]
  constructor
  · rintro ⟨_, ⟨⟨i, hi, trip, htrip, rfl⟩, hacc⟩, rfl⟩
    exact ⟨i, trip, hi, htrip, rfl, hacc⟩
  · rintro ⟨i, trip, hi, htrip, rfl, hacc⟩
    exact ⟨(i, trip), ⟨⟨i, hi, trip, htrip, rfl⟩, hacc⟩, rfl⟩

/-! ## Boarding -/

namespace Task

variable {task : Task} {route : Route} {p : Position}

theorem boardingRule?_of_entries (hentries : task.network.connections.entries = []) (last : Option AlightedTrip)
    (route : Route) (i : Position) (run : Run) : task.network.boardingRule? last route i run = none := by
  unfold Network.boardingRule? Network.rule? ConnectionTable.lookup?
  rw [hentries]
  cases last <;> cases run.ref.call? route.index i <;> rfl

section MayBoard

variable {last : Option AlightedTrip} {trip : AlightedTrip} {reached : Time} {rides i : Nat} {run : Run} {s : Schedule}

theorem mayBoard_of_floor (hrule : task.network.boardingRule? last route p run = none)
    (hfloor : task.settings.boardingFloor reached rides ≤ run.departure p) :
    task.MayBoard last reached rides route p run := by
  unfold MayBoard
  rw [hrule]
  exact hfloor

/-- A trip that waits may be boarded whenever it leaves. -/
theorem mayBoard_of_mem_waiting (hnet : task.network.Sound)
    (h : i ∈ (task.boardingTerms route p reached trip).waiting) :
    task.MayBoard (some trip) reached rides route p (Run.ofTrip i s) := by
  unfold MayBoard
  rw [Network.boardingRule?_scheduled, ← rule?_boardingTerms, rule?_of_mem_waiting hnet h]
  trivial

/-- Terms allow nothing that the rules do not. -/
theorem mayBoard_of_allows (h : (task.boardingTerms route p reached trip).allows
    (task.settings.boardingFloor reached rides) i (s.departure p) = true) :
    task.MayBoard (some trip) reached rides route p (Run.ofTrip i s) := by
  simp only [BoardingTerms.allows] at h
  rw [rule?_boardingTerms] at h
  unfold MayBoard ChangeAllowed
  rw [Network.boardingRule?_scheduled, Run.departure_ofTrip]
  split at h
  · cases h
  · rename_i secs hrule
    rw [hrule]
    exact of_decide_eq_true h
  · rename_i hrule
    rw [hrule]
    trivial
  · rename_i hrule
    rw [hrule]
    exact of_decide_eq_true h

end MayBoard

end Task

end JourneyPlanner
