import JourneyPlanner.Proofs.Building
import JourneyPlanner.Proofs.Clock
/-!
# The runs of a route

A route has its trips and its services in a stable order (`Route.sorts_ofTimetable`), and a trip's number is
its place in it. `Route.Offers` says that a run belongs to a route's timetable. Along a run times only rise, so that it
leaves no position after it arrives at a later one.
-/
namespace JourneyPlanner

/-! ## The order of a timetable -/

/-- The list is in the order of the key, and what has the same key stands as it was given. -/
structure IsStableSort {α : Type} (key : α → Time) (given sorted : List α) : Prop where
  perm : sorted.Perm given
  pairwise : sorted.Pairwise fun a b => key a ≤ key b
  filter_eq : ∀ t, (sorted.filter fun a => key a = t) = given.filter fun a => key a = t

theorem isStableSort_mergeSort {α : Type} (key : α → Time) (l : List α) :
    IsStableSort key l (l.mergeSort fun a b => decide (key a ≤ key b)) := by
  have htrans : ∀ a b c : α, decide (key a ≤ key b) = true → decide (key b ≤ key c) = true →
      decide (key a ≤ key c) = true := fun a b c hab hbc =>
    decide_eq_true (Time.le_trans (of_decide_eq_true hab) (of_decide_eq_true hbc))
  have htotal : ∀ a b : α, (decide (key a ≤ key b) || decide (key b ≤ key a)) = true := fun a b => by
    simpa using Time.le_total (key a) (key b)
  refine ⟨List.mergeSort_perm .., ?_, fun t => ?_⟩
  · exact (List.pairwise_mergeSort htrans htotal l).imp of_decide_eq_true
  · -- What has the key `t` is in order as it was given, so that it is found in the sorted list in that order.
    have hordered : (l.filter fun a => key a = t).Pairwise fun a b => decide (key a ≤ key b) = true := by
      refine List.pairwise_iff_forall_sublist.2 fun {a b} hab => ?_
      have ha := (List.mem_filter.1 (hab.subset (by simp : a ∈ [a, b]))).2
      have hb := (List.mem_filter.1 (hab.subset (by simp : b ∈ [a, b]))).2
      rw [of_decide_eq_true ha, of_decide_eq_true hb]
      exact decide_eq_true (Time.le_refl t)
    have hsub := (List.sublist_mergeSort htrans htotal hordered List.filter_sublist).filter fun a => key a = t
    rw [List.filter_filter] at hsub
    simp only [Bool.and_self] at hsub
    exact (hsub.eq_of_length ((List.mergeSort_perm l _).symm.filter _).length_eq).symm

/-- The trips of the route are the given ones by their departures from the first position, and its services those
given by their starts. What leaves or starts together keeps the order in which it is given. -/
structure Route.Sorts (route : Route) (trips : List Schedule) (services : List Headway) : Prop where
  trips_sorted : IsStableSort (fun t => t.departure 0) trips route.trips.toList
  services_sorted : IsStableSort Headway.start services route.services.toList

theorem Route.sorts_ofTimetable {index : RouteIndex} {id : RouteId} {mode : Mode} {pattern : StopPattern}
    {trips : List Schedule} {services : List Headway} {route : Route}
    (h : Route.ofTimetable index id mode pattern trips services = .ok route) : route.Sorts trips services := by
  simp only [Route.ofTimetable] at h
  split at h
  · cases h
  · split at h
    · cases h
    · cases h
      exact ⟨isStableSort_mergeSort .., isStableSort_mergeSort ..⟩

/-! ## Times along a trip -/

namespace Schedule

variable {s : Schedule}

theorem departure_mono {p q : Position} (hpq : p ≤ q) (hq : q < s.size) : s.departure p ≤ s.departure q := by
  induction hpq with
  | refl => exact Time.le_refl _
  | step hpq ih =>
    have h1 := ih (Nat.lt_of_succ_lt hq)
    have h2 := s.departure_le_arrival_succ hq
    exact Time.le_trans h1 (Time.le_trans h2 (s.arrival_le_departure _))

theorem departure_le_arrival {p q : Position} (hpq : p < q) (hq : q < s.size) :
    s.departure p ≤ s.arrival q := by
  obtain ⟨q, rfl⟩ := Nat.exists_eq_succ_of_ne_zero (Nat.ne_zero_of_lt hpq)
  have h1 := departure_mono (Nat.le_of_lt_succ hpq) (Nat.lt_of_succ_lt hq)
  exact Time.le_trans h1 (s.departure_le_arrival_succ hq)

theorem departure_shift {p : Position} (hp : p < s.size) (secs : Int) :
    (s.shift secs).departure p = s.departure p + secs := by
  have hp' : p < s.departures.size := by rw [s.size_eq]; exact hp
  simp [departure, shift, Array.getD, hp']

theorem size_shift (secs : Int) : (s.shift secs).size = s.size := by simp [size, shift]

theorem departure_of_le {p : Position} (hp : s.size ≤ p) : s.departure p = .midnight := by
  have hp' : ¬ p < s.departures.size := by rw [s.size_eq]; exact Nat.not_lt.2 hp
  simp [departure, Array.getD, hp']

end Schedule

/-- The template of a headway service leaves no position before midnight. -/
theorem Headway.IsOfTrip.midnight_le {s : Headway} (h : s.IsOfTrip) (p : Position) :
    0 ≤ (s.template.departure p).secs := by
  obtain ⟨trip, start, finish, interval, h⟩ := h
  simp only [Headway.ofTrip] at h
  split at h
  · split at h
    · cases h
      by_cases hp : p < trip.size
      · have h1 := Schedule.departure_mono (Nat.zero_le p) hp
        rw [Time.le_iff] at h1
        rw [Schedule.departure_shift hp, Time.secs_add]
        omega
      · rw [Schedule.departure_of_le (by rw [Schedule.size_shift]; exact Nat.le_of_not_lt hp)]
        exact Int.le_refl _
    · cases h
  · cases h

/-- The sort of two elements in a form that the kernel can run. -/
theorem mergeSort_pair {α : Type} (le : α → α → Bool) (a b : α) :
    [a, b].mergeSort le = if le a b then [a, b] else [b, a] := by
  simp [List.mergeSort, List.MergeSort.Internal.splitInTwo, List.merge]

/-! ## The runs of a route -/

/-- The run belongs to the timetable. The last time there is cannot be told from a start after it. -/
inductive Route.Offers (route : Route) : Run → Prop
  | scheduled {i : Nat} {trip : Schedule} : route.trips[i]? = some trip → Offers route (Run.ofTrip i trip)
  | headway {i : Nat} {service : Headway} {first : Time} : route.services[i]? = some service →
      (first.secs < 2147483647 → service.isRun first = true) → Offers route (Run.ofHeadway i service first)

theorem Route.run?_ofTrip {route : Route} {i : Nat} {trip : Schedule} (htrip : route.trips[i]? = some trip) :
    route.run? (Run.ofTrip i trip).ref = some (Run.ofTrip i trip) := by
  unfold Run.ofTrip run? scheduled?
  simp only [htrip]
  rfl

theorem Route.run?_ofHeadway {route : Route} {i : Nat} {service : Headway} (hservice : route.services[i]? = some service)
    (first : Time) : route.run? (Run.ofHeadway i service first).ref =
      if service.isRun first then some (Run.ofHeadway i service first) else none := by
  unfold Run.ofHeadway run?
  simp only [hservice]
  rfl

namespace Route.Offers

variable {route : Route} {run : Run}

/-- The name of a run stands for nothing else. -/
theorem run?_eq (h : route.Offers run) {run' : Run} (hrun : route.run? run.ref = some run') :
    run' = run := by
  cases h with
  | scheduled htrip =>
    rw [run?_ofTrip htrip] at hrun
    exact (Option.some.inj hrun).symm
  | headway hservice _ =>
    rw [run?_ofHeadway hservice] at hrun
    split at hrun
    · exact (Option.some.inj hrun).symm
    · cases hrun

/-- The name of a run leads back to it. -/
theorem resolves (h : route.Offers run)
    (hfirst : ∀ i first, run.ref = .headway i first → first.secs < 2147483647) :
    route.run? run.ref = some run := by
  cases h with
  | scheduled htrip => exact run?_ofTrip htrip
  | headway hservice hisRun => rw [run?_ofHeadway hservice, if_pos (hisRun (hfirst _ _ rfl))]

theorem schedule_size (h : route.Offers run) : run.schedule.size = route.pattern.size := by
  cases h with
  | scheduled htrip => exact route.trip_size _ (Array.mem_of_getElem? htrip)
  | headway hservice _ => exact route.service_size _ (Array.mem_of_getElem? hservice)

theorem margin_nonneg (h : route.Offers run) : 0 ≤ run.margin := by
  cases h with
  | scheduled _ => exact Int.le_refl _
  | headway _ _ => exact Int.le_of_lt (Headway.interval_pos _)

theorem board_le_alight (h : route.Offers run) {p q : Position} (hpq : p < q)
    (hq : q < route.pattern.size) : run.departure p ≤ run.arrival q := by
  rw [← h.schedule_size] at hq
  apply Time.add_le_add (Schedule.departure_le_arrival hpq hq)
  have := h.margin_nonneg
  omega

end Route.Offers

theorem Run.departure_ofTrip (i : Nat) (trip : Schedule) (p : Position) :
    (Run.ofTrip i trip).departure p = trip.departure p := by
  have h1 := (trip.departure p).lower
  have h2 := (trip.departure p).upper
  apply Time.ext
  show (trip.departure p + (0 : Int)).secs = _
  rw [Time.secs_add]
  omega

theorem Run.arrival_ofTrip (i : Nat) (trip : Schedule) (p : Position) :
    (Run.ofTrip i trip).arrival p = trip.arrival p := by
  have h1 := (trip.arrival p).lower
  have h2 := (trip.arrival p).upper
  apply Time.ext
  show (trip.arrival p + ((0 : Int) + 0)).secs = _
  rw [Time.secs_add]
  omega

end JourneyPlanner
