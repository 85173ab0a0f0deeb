import JourneyPlanner.Proofs.Earliest
import JourneyPlanner.Proofs.EarliestStore
import JourneyPlanner.Proofs.FrontierStore
import JourneyPlanner.Proofs.Rides
/-!
# Passengers who make others redundant

Of two passengers on scheduled trips of an ordered route, the one on the earlier trip of the timetable
arrives nowhere later than the other. The stores compare departures and not the places in the timetable, so
of two who leave a position together either one may make the other redundant, also the one who arrives
later. An arrival is lost in this way (`coast_loses_express`), but only to a passenger on such a trip, and
none is lost where trips that leave together arrive together.
-/
namespace JourneyPlanner.Route

variable {route : Route} {outrides : Rider → Rider → Position → Bool} {a b c r : Rider} {i j : Nat} {p q : Position}
  {s t : Schedule}

/-! ## Passengers on trips in order -/

/-- On an ordered route a trip is nowhere later than one after it. -/
theorem times_le (h : route.ordered = true) (hs : route.trips[i]? = some s) (ht : route.trips[j]? = some t)
    (hij : i ≤ j) (hp : p < route.pattern.size) : s.departure p ≤ t.departure p ∧ s.arrival p ≤ t.arrival p := by
  rcases Nat.eq_or_lt_of_le hij with rfl | hlt
  · obtain rfl := Option.some.inj (hs.symm.trans ht)
    exact ⟨Time.le_refl _, Time.le_refl _⟩
  · rw [← Array.getElem?_toList] at hs ht
    obtain ⟨hi, rfl⟩ := List.getElem?_eq_some_iff.1 hs
    obtain ⟨hj, rfl⟩ := List.getElem?_eq_some_iff.1 ht
    exact List.pairwise_iff_getElem.1 (route.ordered_iff.1 h).times_le i j hi hj hlt p hp

/-- The passenger is on the scheduled trip of the route with this number. -/
def Carries (route : Route) (r : Rider) (i : Nat) : Prop :=
  ∃ trip, route.trips[i]? = some trip ∧ r.run = Run.ofTrip i trip

/-- At every position after this one the first passenger arrives no later than the second. -/
def NoLater (route : Route) (p : Position) (a b : Rider) : Prop :=
  ∀ q, p < q → q < route.pattern.size → a.run.arrival q ≤ b.run.arrival q

/-- Two passengers leave a position together, the first of them on the later trip of the timetable. -/
def TiedBehind (route : Route) (p : Position) (a b : Rider) : Prop :=
  ∃ i j, route.Carries a i ∧ route.Carries b j ∧ j < i ∧ a.run.departure p = b.run.departure p

/-- Trips that leave a position together arrive together at each position after it. -/
def Together (route : Route) : Prop :=
  ∀ s ∈ route.trips, ∀ t ∈ route.trips, ∀ p q, p < q → q < route.pattern.size →
    s.departure p = t.departure p → s.arrival q = t.arrival q

theorem NoLater.refl (p : Position) (a : Rider) : route.NoLater p a a := fun _ _ _ => Time.le_refl _

theorem NoLater.trans (h : route.NoLater p a b) (h' : route.NoLater p b c) : route.NoLater p a c :=
  fun q hpq hq => Time.le_trans (h q hpq hq) (h' q hpq hq)

theorem NoLater.mono (h : route.NoLater p a b) (hpq : p ≤ q) : route.NoLater q a b :=
  fun q' hq => h q' (Nat.lt_of_le_of_lt hpq hq)

theorem noLater_of_le (h : route.ordered = true) (ha : route.Carries a i) (hb : route.Carries b j) (hij : i ≤ j) :
    route.NoLater p a b := by
  obtain ⟨s, hs, ha⟩ := ha
  obtain ⟨t, ht, hb⟩ := hb
  intro q _ hq
  rw [ha, hb, Run.arrival_ofTrip, Run.arrival_ofTrip]
  exact (times_le h hs ht hij hq).2

/-- Whoever leaves no later arrives no later, unless the two leave together in the other order. -/
theorem noLater_or_tiedBehind (h : route.ordered = true) (ha : route.Carries a i) (hb : route.Carries b j)
    (hle : a.run.departure p ≤ b.run.departure p) : route.NoLater p a b ∨ route.TiedBehind p a b := by
  rcases Nat.lt_or_ge j i with hlt | hge
  · by_cases hp : p < route.pattern.size
    · refine .inr ⟨i, j, ha, hb, hlt, Std.le_antisymm hle ?_⟩
      obtain ⟨s, hs, ha⟩ := ha
      obtain ⟨t, ht, hb⟩ := hb
      rw [ha, hb, Run.departure_ofTrip, Run.departure_ofTrip]
      exact (times_le h ht hs (Nat.le_of_lt hlt) hp).1
    · exact .inl fun q hpq hq => absurd (Nat.lt_trans hpq hq) hp
  · exact .inl (noLater_of_le h ha hb hge)

theorem TiedBehind.noLater (h : route.TiedBehind p a b) (htogether : route.Together) : route.NoLater p a b := by
  obtain ⟨i, j, ⟨s, hs, ha⟩, ⟨t, ht, hb⟩, -, heq⟩ := h
  intro q hpq hq
  rw [ha, hb, Run.departure_ofTrip, Run.departure_ofTrip] at heq
  rw [ha, hb, Run.arrival_ofTrip, Run.arrival_ofTrip,
    htogether s (Array.mem_of_getElem? hs) t (Array.mem_of_getElem? ht) p q hpq hq heq]
  exact Time.le_refl _

/-! ## Boarding one after the other -/

/-- The passengers that are left after some have boarded, each at a position. -/
def boardInTurn (outrides : Rider → Rider → Position → Bool) (boardings : List (Position × Rider)) : List Rider :=
  boardings.foldl (fun riders x => Task.addRider outrides x.1 riders x.2) []

variable {boardings : List (Position × Rider)}

theorem boardInTurn_concat (x : Position × Rider) : boardInTurn outrides (boardings ++ [x]) =
    Task.addRider outrides x.1 (boardInTurn outrides boardings) x.2 := List.foldl_append ..

theorem mem_boardings (h : r ∈ boardInTurn outrides boardings) : ∃ x ∈ boardings, x.2 = r := by
  induction boardings using List.reverseRecOn with
  | nil => cases h
  | append_singleton boardings x ih =>
    rw [boardInTurn_concat] at h
    rcases (Task.addRider_spec outrides x.1 _ x.2).1 r h with h | rfl
    · obtain ⟨y, hy, hyr⟩ := ih h
      exact ⟨y, List.mem_append_left _ hy, hyr⟩
    · exact ⟨x, by simp, rfl⟩

/-! ## The rule -/

/-- What the rule by which passengers on scheduled trips of a route make each other redundant costs in arrivals. -/
structure Prunes (route : Route) (outrides : Rider → Rider → Position → Bool) : Prop where
  /-- Whoever makes another one redundant arrives no later if his trip comes first in the timetable, or if the two
  arrive together, and else not. -/
  pair : ∀ a b i j p, route.Carries a i → route.Carries b j → outrides a b p = true →
    (route.NoLater p a b ↔ i ≤ j ∨ ∀ q, p < q → q < route.pattern.size → a.run.arrival q = b.run.arrival q)
  /-- An arrival is lost only among those who leave together. -/
  tied : ∀ a b i j p, route.Carries a i → route.Carries b j → outrides a b p = true →
    ¬ route.NoLater p a b → route.TiedBehind p a b
  /-- When somebody boards, nobody is lost to one who arrives later, except among those who leave together. -/
  boarding : ∀ riders rider p, (∀ r, r ∈ riders ∨ r = rider → ∃ i, route.Carries r i) →
    ∀ r, r ∈ riders ∨ r = rider →
      ∃ r' ∈ Task.addRider outrides p riders rider, route.NoLater p r' r ∨ route.TiedBehind p r' r
  /-- Where trips that leave together arrive together, whoever has boarded on the way is still there, or somebody
  who arrives no later from here on. -/
  ride : route.Together → ∀ boardings, boardings.Pairwise (fun x y => x.1 ≤ y.1) →
    (∀ x ∈ boardings, ∃ i, route.Carries x.2 i) → ∀ x ∈ boardings, ∀ p, (∀ y ∈ boardings, y.1 ≤ p) →
      ∃ r ∈ boardInTurn outrides boardings, route.NoLater p r x.2

section

variable (h : route.ordered = true)
  (hleaves : ∀ {a b : Rider} {p : Position}, outrides a b p = true → a.run.departure p ≤ b.run.departure p)
include h hleaves

theorem addRider_keeps {riders : List Rider} {rider : Rider}
    (hon : ∀ r, r ∈ riders ∨ r = rider → ∃ i, route.Carries r i) (hr : r ∈ riders ∨ r = rider) :
    ∃ r' ∈ Task.addRider outrides p riders rider, route.NoLater p r' r ∨ route.TiedBehind p r' r := by
  obtain ⟨hsub, hcover⟩ := Task.addRider_spec outrides p riders rider
  obtain ⟨r', hr', rfl | hout⟩ := hcover r hr
  · exact ⟨r', hr', .inl (.refl p r')⟩
  · obtain ⟨i, hi⟩ := hon r' (hsub r' hr')
    obtain ⟨j, hj⟩ := hon r hr
    exact ⟨r', hr', noLater_or_tiedBehind h hi hj (hleaves hout)⟩

theorem boardInTurn_keeps (htogether : route.Together) (hsorted : boardings.Pairwise fun x y => x.1 ≤ y.1)
    (hon : ∀ x ∈ boardings, ∃ i, route.Carries x.2 i) : ∀ x ∈ boardings, ∀ p, (∀ y ∈ boardings, y.1 ≤ p) →
      ∃ r ∈ boardInTurn outrides boardings, route.NoLater p r x.2 := by
  induction boardings using List.reverseRecOn with
  | nil => exact fun x hx => by cases hx
  | append_singleton boardings y ih =>
    obtain ⟨hsorted, -, hlast⟩ := List.pairwise_append.1 hsorted
    obtain ⟨hbefore, hon'⟩ := List.forall_mem_append.1 hon
    intro x hx p hp
    -- Until the last one boards, everybody has somebody who arrives no later.
    have hold : ∃ r, (r ∈ boardInTurn outrides boardings ∨ r = y.2) ∧ route.NoLater y.1 r x.2 := by
      rcases List.mem_append.1 hx with hx | hx
      · obtain ⟨r, hr, hle⟩ := ih hsorted hbefore x hx y.1 fun z hz => hlast z hz y (by simp)
        exact ⟨r, .inl hr, hle⟩
      · obtain rfl := List.mem_singleton.1 hx
        exact ⟨x.2, .inr rfl, .refl _ _⟩
    obtain ⟨r, hr, hle⟩ := hold
    have hall : ∀ r, r ∈ boardInTurn outrides boardings ∨ r = y.2 → ∃ i, route.Carries r i := by
      rintro r (hr | rfl)
      · obtain ⟨z, hz, rfl⟩ := mem_boardings hr
        exact hbefore z hz
      · exact hon' y (by simp)
    obtain ⟨r', hr', hkeeps⟩ := addRider_keeps (p := y.1) h hleaves hall hr
    rw [boardInTurn_concat]
    have hle' : route.NoLater y.1 r' r := by
      rcases hkeeps with hle' | htied
      · exact hle'
      · exact htied.noLater htogether
    exact ⟨r', hr', (hle'.trans hle).mono (hp y (by simp))⟩

theorem Prunes.of_departure_le : route.Prunes outrides where
  pair a b i j p ha hb hout := by
    constructor
    · intro hle
      refine (Nat.lt_or_ge j i).symm.imp_right fun hlt q hpq hq => ?_
      exact Std.le_antisymm (hle q hpq hq) (noLater_of_le h hb ha (Nat.le_of_lt hlt) q hpq hq)
    · rintro (hij | heq)
      · exact noLater_of_le h ha hb hij
      · exact fun q hpq hq => heq q hpq hq ▸ Time.le_refl _
  tied a b i j p ha hb hout hnot := (noLater_or_tiedBehind h ha hb (hleaves hout)).resolve_left hnot
  boarding riders rider p hon r hr := addRider_keeps h hleaves hon hr
  ride htogether boardings hsorted hon := boardInTurn_keeps h hleaves htogether hsorted hon

end

/-- On an ordered route neither store loses an arrival, except among trips that leave a position together. -/
theorem prunes (h : route.ordered = true) :
    route.Prunes EarliestArrivals.outrides ∧ route.Prunes ArrivalFrontiers.outrides :=
  ⟨.of_departure_le h (LawfulStore.outrides_le (σ := EarliestArrivals)),
    .of_departure_le h (LawfulStore.outrides_le (σ := ArrivalFrontiers))⟩

/-- An express and a local train that leave the junction together. -/
def coast? : Except DataError Route := do
  let express ← Schedule.ofTimes ⟨"express", by decide⟩ #[.hms 8 0 0, .hms 8 10 0, .hms 8 40 0]
    #[.hms 8 0 0, .hms 8 30 0, .hms 8 40 0]
  let stopping ← Schedule.ofTimes ⟨"local", by decide⟩ #[.hms 8 5 0, .hms 8 15 0, .hms 8 50 0]
    #[.hms 8 5 0, .hms 8 30 0, .hms 8 50 0]
  let pattern ← StopPattern.ofStops "coast" #[0, 1, 2]
  ofTimetable 0 ⟨"coast", by decide⟩ .rail pattern [express, stopping] []

/-- The times of the trip with a number at the junction and at the end. -/
def junctionTimes (route : Route) (i : Nat) : Option (Time × Time) :=
  route.trips[i]?.map fun trip => (trip.departure 1, trip.arrival 2)

theorem coast_times : ∃ route, coast? = .ok route ∧ route.ordered = true ∧ 2 < route.pattern.size ∧
    route.junctionTimes 0 = some (.hms 8 30 0, .hms 8 40 0) ∧ route.junctionTimes 1 = some (.hms 8 30 0, .hms 8 50 0) := by
  have heval : (coast?.toOption.map fun route => decide (route.ordered = true ∧ 2 < route.pattern.size ∧
      route.junctionTimes 0 = some (.hms 8 30 0, .hms 8 40 0) ∧
        route.junctionTimes 1 = some (.hms 8 30 0, .hms 8 50 0))) = some true := by
    simp only [coast?, ofTimetable, mergeSort_pair]
    decide +kernel
  cases hroute : coast? with
  | error e => rw [hroute] at heval; cases heval
  | ok route =>
    rw [hroute] at heval
    exact ⟨route, rfl, of_decide_eq_true (Option.some.inj heval)⟩

theorem coast_prunes : ∃ route, coast? = .ok route ∧ route.ordered = true ∧
    route.Prunes EarliestArrivals.outrides ∧ route.Prunes ArrivalFrontiers.outrides := by
  obtain ⟨route, hroute, hordered, -⟩ := coast_times
  exact ⟨route, hroute, hordered, prunes hordered⟩

theorem Carries.times_eq (h : route.Carries r i) {departure arrival : Time}
    (htimes : route.junctionTimes i = some (departure, arrival)) :
    r.run.departure 1 = departure ∧ r.run.arrival 2 = arrival := by
  obtain ⟨trip, htrip, hrun⟩ := h
  rw [junctionTimes, htrip] at htimes
  rw [hrun, Run.departure_ofTrip, Run.arrival_ofTrip]
  exact Prod.mk.inj (Option.some.inj htimes)

/-- Who is on the local train keeps somebody from boarding the express at the junction, and arrives later. -/
theorem coast_loses_express : ∃ route, coast? = .ok route ∧ route.ordered = true ∧ ∀ a b, route.Carries a 1 →
    route.Carries b 0 → Task.addRider EarliestArrivals.outrides 1 [a] b = [a] ∧ ¬ route.NoLater 1 a b := by
  obtain ⟨route, hroute, hordered, hsize, hexpress, hlocal⟩ := coast_times
  refine ⟨route, hroute, hordered, fun a b ha hb => ⟨?_, fun hle => ?_⟩⟩
  · have hout : EarliestArrivals.outrides a b 1 = true := by
      rw [EarliestArrivals.outrides, (ha.times_eq hlocal).1, (hb.times_eq hexpress).1]
      decide
    simp [Task.addRider, hout]
  · have hlate := hle 2 (by decide) hsize
    rw [(ha.times_eq hlocal).2, (hb.times_eq hexpress).2] at hlate
    exact absurd hlate (by decide)

end JourneyPlanner.Route
