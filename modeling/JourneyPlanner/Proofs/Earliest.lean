import Mathlib.Data.List.Induction
import JourneyPlanner.Proofs.Timetable
/-!
# The earliest run of a route

Each search of a timetable selects, of the runs that it looks for, one that leaves first, and of several
that leave together the one with the lowest number (`Selects`, `Run.Precedes`). The number of a trip is its
place among the trips of the route, which are sorted as `Route.sorts_ofTimetable` says. The searches join by
`Run.earlierOf`, where the run of the first search wins a tie.
-/
namespace JourneyPlanner

/-- What is selected is eligible and comes before all that is. Nothing is selected where nothing is eligible. -/
def Selects {α : Type} (before : α → α → Prop) (eligible : α → Prop) : Option α → Prop
  | none => ∀ a, ¬ eligible a
  | some a => eligible a ∧ ∀ b, eligible b → before a b

namespace Selects

variable {α β : Type} {before : α → α → Prop} {eligible eligible' : α → Prop} {found : Option α} {a : α}

theorem eligible_of_eq (h : Selects before eligible found) (ha : found = some a) : eligible a := by
  subst ha
  exact h.1

theorem exists_before (h : Selects before eligible found) (ha : eligible a) : ∃ b, found = some b ∧ before b a := by
  cases found with
  | none => exact absurd ha (h a)
  | some b => exact ⟨b, rfl, h.2 a ha⟩

theorem congr (h : Selects before eligible found) (heligible : ∀ a, eligible a ↔ eligible' a) :
    Selects before eligible' found := by
  rwa [show eligible' = eligible from funext fun a => (propext (heligible a)).symm]

/-- Where no two eligible values come before each other, what is selected is determined. -/
theorem unique {found' : Option α} (h : Selects before eligible found) (h' : Selects before eligible found')
    (hanti : ∀ a b, eligible a → eligible b → before a b → before b a → a = b) : found = found' := by
  cases found with
  | none =>
    cases found' with
    | none => rfl
    | some b => exact absurd h'.1 (h b)
  | some a =>
    cases found' with
    | none => exact absurd h.1 (h' a)
    | some b => rw [hanti a b h.1 h'.1 (h.2 b h'.1) (h'.2 a h.1)]

/-- What holds of the values that are looked through holds of what is made of them. -/
theorem map {before : β → β → Prop} {g : α → β} (h : Selects (fun a b => before (g a) (g b)) eligible found) :
    Selects before (fun b => ∃ a, eligible a ∧ b = g a) (found.map g) := by
  cases found with
  | none =>
    rintro b ⟨a, ha, -⟩
    exact h a ha
  | some a =>
    refine ⟨⟨a, h.1, rfl⟩, ?_⟩
    rintro b ⟨a', ha', rfl⟩
    exact h.2 a' ha'

/-- The first accepted value of a row comes before all others. -/
theorem find? {row : List α} (hrow : row.Pairwise before) (hrefl : ∀ a, before a a) (accept : α → Bool) :
    Selects before (fun a => a ∈ row ∧ accept a = true) (row.find? accept) := by
  cases hfind : row.find? accept with
  | none =>
    rintro a ⟨hmem, hacc⟩
    exact absurd hacc (List.find?_eq_none.1 hfind a hmem)
  | some a =>
    obtain ⟨hacc, before, after, rfl, hbefore⟩ := List.find?_eq_some_iff_append.1 hfind
    refine ⟨⟨by simp, hacc⟩, ?_⟩
    rintro b ⟨hmem, haccb⟩
    rcases List.mem_append.1 hmem with hmem | hmem
    · exact absurd haccb (by simpa using hbefore b hmem)
    · rcases List.mem_cons.1 hmem with rfl | hmem
      · exact hrefl b
      · exact (List.pairwise_cons.1 (List.pairwise_append.1 hrow).2.1).1 b hmem

end Selects

/-! ## Which run comes first -/

/-- The number of a trip or of a headway service in its route. -/
def RunRef.number : RunRef → Nat
  | .scheduled i => i
  | .headway i _ => i

namespace Run

/-- Run `a` leaves position `p` earlier than `b`, or together with it and has the lower rank, or the same rank and
no higher number. -/
def Precedes (rank : Run → Nat) (p : Position) (a b : Run) : Prop :=
  a.departure p < b.departure p ∨
    a.departure p = b.departure p ∧ (rank a < rank b ∨ rank a = rank b ∧ a.ref.number ≤ b.ref.number)

/-- Run `a` leaves position `p` earlier than `b`, or together with it and has no higher number. -/
abbrev LeavesFirst : Position → Run → Run → Prop := Precedes fun _ => 0

variable {p : Position} {rank : Run → Nat} {P Q : Run → Prop} {a b : Option Run}

theorem precedes_iff {x y : Run} : Precedes rank p x y ↔
    (x.departure p).secs < (y.departure p).secs ∨
      (x.departure p).secs = (y.departure p).secs ∧
        (rank x < rank y ∨ rank x = rank y ∧ x.ref.number ≤ y.ref.number) := by
  unfold Precedes
  rw [Time.lt_iff, Time.ext_iff]

theorem leavesFirst_iff {x y : Run} : LeavesFirst p x y ↔
    (x.departure p).secs < (y.departure p).secs ∨
      (x.departure p).secs = (y.departure p).secs ∧ x.ref.number ≤ y.ref.number := by
  unfold LeavesFirst
  rw [precedes_iff]
  omega

theorem Precedes.refl (rank : Run → Nat) (p : Position) (run : Run) : Precedes rank p run run :=
  .inr ⟨rfl, .inr ⟨rfl, Nat.le_refl _⟩⟩

theorem Precedes.departure_le {x y : Run} (h : Precedes rank p x y) : x.departure p ≤ y.departure p := by
  rw [precedes_iff] at h
  rw [Time.le_iff]
  omega

/-- Among runs of one rank it is the departure and the number that count. -/
theorem selects_of_sameRank (h : Selects (LeavesFirst p) Q b) (hsame : ∀ x y, Q x → Q y → rank x = rank y) :
    Selects (Precedes rank p) Q b := by
  cases b with
  | none => exact h
  | some y =>
    refine ⟨h.1, fun z hz => ?_⟩
    have hrank := hsame y z h.1 hz
    have hfirst := h.2 z hz
    rw [leavesFirst_iff] at hfirst
    rw [precedes_iff]
    omega

/-- The better of what two searches select is selected from all that both look for. What the second search alone
looks for has one rank, and the first search wins a tie against it. -/
theorem earlierOf_selects (ha : Selects (Precedes rank p) P a) (hb : Selects (LeavesFirst p) Q b)
    (hsame : ∀ x y, Q x → ¬ P x → Q y → ¬ P y → rank x = rank y)
    (htie : ∀ x y, P x → Q y → ¬ P y → x.departure p = y.departure p → Precedes rank p x y) :
    Selects (Precedes rank p) (fun run => P run ∨ Q run) (earlierOf p a b) := by
  cases a with
  | none =>
    -- Only the second search looks for anything.
    have hb := selects_of_sameRank hb fun x y hx hy => hsame x y hx (ha x) hy (ha y)
    exact hb.congr fun run => ⟨.inr, fun h => h.resolve_left (ha run)⟩
  | some x =>
    cases b with
    | none =>
      show Selects (Precedes rank p) _ (some x)
      exact ha.congr fun run => ⟨.inl, fun h => h.resolve_right (hb run)⟩
    | some y =>
      unfold earlierOf
      dsimp only
      split
      · rename_i hlt
        -- Nothing that the first search looks for leaves as early as `y`.
        have hnot : ∀ z, z.departure p ≤ y.departure p → ¬ P z := fun z hz hP => by
          have hle := (ha.2 z hP).departure_le
          rw [Time.le_iff] at hz hle
          rw [Time.lt_iff] at hlt
          omega
        refine ⟨.inr hb.1, fun z hz => ?_⟩
        by_cases hP : P z
        · exact .inl (Time.not_le.1 fun hle => hnot z hle hP)
        · have hQ := hz.resolve_left hP
          have hrank := hsame y z hb.1 (hnot y (Time.le_refl _)) hQ hP
          have hfirst := hb.2 z hQ
          rw [leavesFirst_iff] at hfirst
          rw [precedes_iff]
          omega
      · rename_i hle
        refine ⟨.inl ha.1, fun z hz => ?_⟩
        by_cases hP : P z
        · exact ha.2 z hP
        · have hQ := hz.resolve_left hP
          have hfirst := (hb.2 z hQ).departure_le
          rcases Int.lt_or_eq_of_le (Time.le_trans (Time.not_lt.1 hle) hfirst) with hlt | heq
          · exact .inl hlt
          · exact htie x z ha.1 hQ hP (Time.ext heq)

/-- What is selected from the candidates of several entries, one after another, where later entries have no lower
numbers. -/
theorem foldl_earlierOf_selects {β : Type} (eligible : β → Run → Prop) {candidate : β → Option Run} (entries : List β)
    (hcandidate : ∀ e ∈ entries, Selects (LeavesFirst p) (eligible e) (candidate e))
    (hnumber : entries.Pairwise fun e e' => ∀ x y, eligible e x → eligible e' y → x.ref.number ≤ y.ref.number) :
    Selects (LeavesFirst p) (fun run => ∃ e ∈ entries, eligible e run)
      (entries.foldl (fun best e => earlierOf p best (candidate e)) none) := by
  induction entries using List.reverseRecOn with
  | nil => exact fun run h => by simp at h
  | append_singleton entries e ih =>
    obtain ⟨hpair, -, hlast⟩ := List.pairwise_append.1 hnumber
    have hrest := ih (fun e' he' => hcandidate e' (List.mem_append_left _ he')) hpair
    rw [List.foldl_append, List.foldl_cons, List.foldl_nil]
    refine (earlierOf_selects hrest (hcandidate e (by simp)) (fun _ _ _ _ _ _ => rfl) ?_).congr fun run => ?_
    · rintro x y ⟨e', he', hx⟩ hy - heq
      exact .inr ⟨heq, .inr ⟨rfl, hlast e' he' e (by simp) x y hx hy⟩⟩
    · simp [or_and_right, exists_or]

end Run

/-! ## The earliest scheduled trip -/

/-- Trips in order are nowhere later than any after them. -/
theorem InOrder.times_le {trips : List Schedule} {n : Nat} (h : InOrder trips n) : trips.Pairwise fun a b =>
    ∀ p < n, a.departure p ≤ b.departure p ∧ a.arrival p ≤ b.arrival p := by
  induction trips with
  | nil => exact .nil
  | cons trip rest ih =>
    obtain ⟨hnext, hrest⟩ := h
    have hpair := ih hrest
    refine List.pairwise_cons.2 ⟨fun b hb p hp => ?_, hpair⟩
    -- The trip keeps behind the next one, and the next one behind all after it.
    cases rest with
    | nil => cases hb
    | cons next rest =>
      have h1 := hnext next rfl p hp
      rcases List.mem_cons.1 hb with rfl | hb
      · exact h1
      · have h2 := (List.pairwise_cons.1 hpair).1 b hb p hp
        exact ⟨Time.le_trans h1.1 h2.1, Time.le_trans h1.2 h2.2⟩

theorem InOrder.departure_le {trips : List Schedule} {n : Nat} (h : InOrder trips n) {p : Position}
    (hp : p < n) : trips.Pairwise fun a b => a.departure p ≤ b.departure p :=
  h.times_le.imp fun hle => (hle p hp).1

namespace Route

variable {route : Route} {p : Position} {floor : Time}

theorem mem_tripsFrom {i k : Nat} {trip : Schedule} :
    (k, trip) ∈ route.tripsFrom i ↔ i ≤ k ∧ route.trips[k]? = some trip := by
  unfold tripsFrom
  rw [List.mem_mapIdx]
  constructor
  · rintro ⟨j, hj, heq⟩
    cases heq
    refine ⟨Nat.le_add_right i j, ?_⟩
    rw [List.length_drop] at hj
    simp
  · rintro ⟨hik, hk⟩
    obtain ⟨hlt, rfl⟩ := Array.getElem?_eq_some_iff.1 hk
    refine ⟨k - i, by simp; omega, ?_⟩
    have : i + (k - i) = k := by omega
    simp [this]

/-- The run is a scheduled trip that is accepted and leaves position `p` at the floor or later. -/
def TripLeaves (route : Route) (p : Position) (floor : Time) (accept : Nat → Schedule → Bool) (run : Run) : Prop :=
  ∃ i trip, route.trips[i]? = some trip ∧ run = Run.ofTrip i trip ∧ accept i trip = true ∧ floor ≤ trip.departure p

theorem tripsFrom_numbers (i : Nat) : (route.tripsFrom i).Pairwise fun a b => a.1 < b.1 := by
  unfold tripsFrom
  rw [List.pairwise_iff_getElem]
  intro j k hj hk hjk
  simpa using hjk

/-- A scan joins the trips it may take one after another. -/
theorem map_scan (accept : Nat → Schedule → Bool) (trips : List (Nat × Schedule)) :
    (scan p floor accept trips).map (fun t => Run.ofTrip t.1 t.2) =
      trips.foldl (fun best t => Run.earlierOf p best
        (if floor ≤ t.2.departure p ∧ accept t.1 t.2 = true then some (Run.ofTrip t.1 t.2) else none)) none := by
  unfold scan
  induction trips using List.reverseRecOn with
  | nil => rfl
  | append_singleton trips t ih =>
    rw [List.foldl_append, List.foldl_append, ← ih]
    generalize List.foldl _ none trips = best
    by_cases hfloor : floor ≤ t.2.departure p <;> by_cases hacc : accept t.1 t.2 = true <;> cases best with
    | none => simp [hfloor, hacc, improvesOn, Run.earlierOf]
    | some b =>
      by_cases hlt : t.2.departure p < b.2.departure p <;>
        simp [hfloor, hacc, improvesOn, Run.earlierOf, Run.departure_ofTrip, hlt]

theorem scan_selects (accept : Nat → Schedule → Bool) :
    Selects (Run.LeavesFirst p) (route.TripLeaves p floor accept)
      ((scan p floor accept (route.tripsFrom 0)).map fun t => Run.ofTrip t.1 t.2) := by
  rw [map_scan]
  refine (Run.foldl_earlierOf_selects
    (fun t run => run = Run.ofTrip t.1 t.2 ∧ floor ≤ t.2.departure p ∧ accept t.1 t.2 = true) _ ?_ ?_).congr ?_
  · intro t _
    split
    · rename_i h
      refine ⟨⟨rfl, h⟩, ?_⟩
      rintro run ⟨rfl, -⟩
      exact .refl ..
    · rename_i h
      exact fun run hrun => h hrun.2
  · refine (tripsFrom_numbers 0).imp fun {t t'} hlt x y hx hy => ?_
    rw [hx.1, hy.1]
    exact Nat.le_of_lt hlt
  · intro run
    constructor
    · rintro ⟨⟨i, trip⟩, hmem, rfl, hfloor, hacc⟩
      exact ⟨i, trip, (mem_tripsFrom.1 hmem).2, rfl, hacc, hfloor⟩
    · rintro ⟨i, trip, htrip, rfl, hacc, hfloor⟩
      exact ⟨(i, trip), mem_tripsFrom.2 ⟨Nat.zero_le i, htrip⟩, rfl, hfloor, hacc⟩

/-- Whether the trip of a number leaves `p` before the floor. -/
def leavesBefore (route : Route) (p : Position) (floor : Time) (i : Nat) : Bool :=
  (route.trips[i]?).any fun trip => decide (trip.departure p < floor)

theorem leavesBefore_iff {i : Nat} {trip : Schedule} (h : route.trips[i]? = some trip) :
    route.leavesBefore p floor i = true ↔ trip.departure p < floor := by
  unfold leavesBefore
  rw [h]
  simp

/-- Trips in order that leave before the floor come first. -/
theorem leavesBefore_mono (hord : route.ordered = true) (hp : p < route.pattern.size) (i j : Nat)
    (hij : i ≤ j) (hj : route.leavesBefore p floor j = true) : route.leavesBefore p floor i = true := by
  have hpair := (route.ordered_iff.1 hord).departure_le hp
  cases hb : route.trips[j]? with
  | none =>
    simp only [leavesBefore] at hj
    simp [hb] at hj
  | some b =>
    have hlt := (leavesBefore_iff hb).1 hj
    obtain ⟨hjs, hbj⟩ := Array.getElem?_eq_some_iff.1 hb
    have ha := Array.getElem?_eq_getElem (Nat.lt_of_le_of_lt hij hjs)
    apply (leavesBefore_iff ha).2
    rcases Nat.lt_or_eq_of_le hij with hlt' | rfl
    · have := List.pairwise_iff_getElem.1 hpair i j (by simpa using Nat.lt_trans hlt' hjs) (by simpa using hjs) hlt'
      simp only [Array.getElem_toList, hbj] at this
      rw [Time.le_iff] at this
      rw [Time.lt_iff] at *
      omega
    · rw [hbj]
      exact hlt

/-- The trips of an ordered route leave `p` in their order. -/
theorem tripsFrom_pairwise (hord : route.ordered = true) (hp : p < route.pattern.size) (i : Nat) :
    (route.tripsFrom i).Pairwise fun a b => a.2.departure p ≤ b.2.departure p := by
  have hpair := (route.ordered_iff.1 hord).departure_le hp
  have hmap : (route.tripsFrom i).map Prod.snd = route.trips.toList.drop i := by
    unfold tripsFrom
    apply List.ext_getElem (by simp)
    intro k h1 h2
    simp
  rw [← List.pairwise_map (f := Prod.snd) (R := fun a b => Schedule.departure a p ≤ b.departure p), hmap]
  exact hpair.sublist (List.drop_sublist i _)

/-- In an ordered route the first accepted trip from the floor on is selected. -/
theorem find?_tripsFrom_selects (hord : route.ordered = true) (hp : p < route.pattern.size)
    (accept : Nat → Schedule → Bool) :
    Selects (Run.LeavesFirst p) (route.TripLeaves p floor accept)
      (((route.tripsFrom (bisect route.trips.size (route.leavesBefore p floor))).find? fun t => accept t.1 t.2).map
        fun t => Run.ofTrip t.1 t.2) := by
  -- The bisection leaves out just the trips before the floor.
  have hspec := bisectBetween_spec (route.leavesBefore p floor) 0 route.trips.size (Nat.zero_le _)
    (leavesBefore_mono hord hp)
  have hrow : (route.tripsFrom (bisect route.trips.size (route.leavesBefore p floor))).Pairwise fun a b =>
      Run.LeavesFirst p (Run.ofTrip a.1 a.2) (Run.ofTrip b.1 b.2) := by
    refine (tripsFrom_pairwise hord hp _).imp₂ (fun a b hle hlt => ?_) (tripsFrom_numbers _)
    rw [Run.leavesFirst_iff, Run.departure_ofTrip, Run.departure_ofTrip]
    rcases Int.lt_or_eq_of_le hle with hless | heq
    · exact .inl hless
    · exact .inr ⟨heq, Nat.le_of_lt hlt⟩
  refine (Selects.find? hrow (fun _ => .refl ..) _).map.congr fun run => ?_
  constructor
  · rintro ⟨⟨i, trip⟩, ⟨hmem, hacc⟩, rfl⟩
    obtain ⟨hi, htrip⟩ := mem_tripsFrom.1 hmem
    refine ⟨i, trip, htrip, rfl, hacc, Time.not_lt.1 fun hbefore => ?_⟩
    rw [← leavesBefore_iff htrip, hspec.2.2.2 i hi (Array.getElem?_eq_some_iff.1 htrip).1] at hbefore
    cases hbefore
  · rintro ⟨i, trip, htrip, rfl, hacc, hfloor⟩
    refine ⟨(i, trip), ⟨mem_tripsFrom.2 ⟨Nat.le_of_not_lt fun hi => ?_, htrip⟩, hacc⟩, rfl⟩
    exact Time.not_lt.2 hfloor ((leavesBefore_iff htrip).1 (hspec.2.2.1 i (Nat.zero_le _) hi))

/-- The search selects the trip that leaves first, and the lowest number of several. -/
theorem earliestScheduled_selects (hp : p < route.pattern.size) (accept : Nat → Schedule → Bool) :
    Selects (Run.LeavesFirst p) (route.TripLeaves p floor accept) (route.earliestScheduled p floor accept) := by
  unfold earliestScheduled
  split
  · rename_i hord
    exact find?_tripsFrom_selects hord hp accept
  · exact scan_selects accept

end Route

/-! ## The earliest run of a headway service -/

namespace Headway

variable {service : Headway} {p : Position} {floor : Time} {k : Nat}

/-- The first departure of the run of the given number, the first run having number 0. -/
def nth (service : Headway) (k : Nat) : Time := service.start + (k : Int) * service.interval

theorem nth_mono {j k : Nat} (h : j ≤ k) : service.nth j ≤ service.nth k := by
  have hpos := service.interval_pos
  refine Time.add_le_add (Time.le_refl _) (Int.mul_le_mul_of_nonneg_right ?_ (Int.le_of_lt hpos))
  omega

/-- The first departures are the multiples of the interval after the start, as far as times go. -/
theorem secs_nth (service : Headway) (k : Nat) :
    (service.nth k).secs = min 2147483647 (service.start.secs + (k : Int) * service.interval) := by
  have hnonneg : 0 ≤ (k : Int) * service.interval := Int.mul_nonneg (by omega) (Int.le_of_lt service.interval_pos)
  have h1 := service.start.lower
  unfold nth
  rw [Time.secs_add]
  omega

/-- A run of the service leaves the first position then: some number of intervals after the start, in exact seconds,
and no later than the finish. -/
def Starts (service : Headway) (first : Time) : Prop :=
  first ≤ service.finish ∧ ∃ k : Nat, first.secs = service.start.secs + k * service.interval

/-- A start that the search can compute: no later than the finish once it has been cut off at the last time there
is. -/
def Reaches (service : Headway) (first : Time) : Prop := ∃ k, service.nth k ≤ service.finish ∧ first = service.nth k

/-- The service knows its runs. -/
theorem isRun_iff {first : Time} : service.isRun first = true ↔ service.Starts first := by
  have hpos := service.interval_pos
  unfold isRun Starts
  rw [Bool.and_eq_true, Bool.and_eq_true, decide_eq_true_eq, decide_eq_true_eq, beq_iff_eq, Time.sub_time, Time.le_iff]
  constructor
  · rintro ⟨⟨hstart, hfinish⟩, hmod⟩
    refine ⟨hfinish, ((first.secs - service.start.secs) / service.interval).toNat, ?_⟩
    rw [Int.toNat_of_nonneg (Int.ediv_nonneg (by omega) (Int.le_of_lt hpos)),
      Int.ediv_mul_cancel (Int.dvd_of_emod_eq_zero hmod)]
    omega
  · rintro ⟨hfinish, k, hk⟩
    have hnonneg : 0 ≤ (k : Int) * service.interval := Int.mul_nonneg (by omega) (Int.le_of_lt hpos)
    refine ⟨⟨by omega, hfinish⟩, ?_⟩
    rw [show first.secs - service.start.secs = (k : Int) * service.interval by omega]
    exact Int.mul_emod_left ..

/-- The service has each of its runs. The last time there is cannot be told from a start after it. -/
theorem isRun_nth (h : service.nth k ≤ service.finish) (hlt : (service.nth k).secs < 2147483647) :
    service.isRun (service.nth k) = true := by
  have hsecs := service.secs_nth k
  exact isRun_iff.2 ⟨h, k, by omega⟩

/-- The number of the first run that leaves `p` at the floor or later. -/
def runsBefore (service : Headway) (p : Position) (floor : Time) : Nat :=
  let late := floor.secs - (service.template.departure p).secs - service.start.secs
  if late ≤ 0 then 0 else ((late + service.interval - 1) / service.interval).toNat

theorem firstDeparture?_eq : service.firstDeparture? p floor =
    if service.nth (service.runsBefore p floor) ≤ service.finish then some (service.nth (service.runsBefore p floor))
    else none := by
  have hruns : ((service.runsBefore p floor : Nat) : Int) =
      if floor.secs - (service.template.departure p).secs - service.start.secs ≤ 0 then 0
      else (floor.secs - (service.template.departure p).secs - service.start.secs + service.interval - 1) /
        service.interval := by
    unfold runsBefore
    dsimp only
    split
    · rfl
    · have hpos := service.interval_pos
      exact Int.toNat_of_nonneg (Int.ediv_nonneg (by omega) (by omega))
  unfold firstDeparture? nth
  rw [hruns]

theorem departure_nth (i : Nat) : ((Run.ofHeadway i service (service.nth k)).departure p).secs =
    max (-2147483648) (min 2147483647 ((service.template.departure p).secs +
      max (-2147483648) (min 2147483647 (service.start.secs + (k : Int) * service.interval)))) := rfl

/-- Just the runs from this number on leave at the floor or later. -/
theorem le_departure_nth_iff (hservice : service.IsOfTrip) (i : Nat) :
    floor ≤ (Run.ofHeadway i service (service.nth k)).departure p ↔ service.runsBefore p floor ≤ k := by
  have hpos := service.interval_pos
  have hmid := hservice.midnight_le p
  have hnonneg : 0 ≤ (k : Int) * service.interval := Int.mul_nonneg (by omega) (Int.le_of_lt hpos)
  have h1 := service.start.lower
  have h2 := floor.lower
  have h3 := floor.upper
  rw [Time.le_iff, departure_nth]
  unfold runsBefore
  dsimp only
  split
  · exact iff_of_true (by omega) (Nat.zero_le k)
  · -- A run before this one leaves so early that its departure is not cut off.
    generalize hlate : floor.secs - (service.template.departure p).secs - service.start.secs = late at *
    have hruns : ((late + service.interval - 1) / service.interval).toNat ≤ k ↔ late ≤ (k : Int) * service.interval := by
      rw [Int.toNat_le, ← Int.lt_add_one_iff, Int.ediv_lt_iff_lt_mul hpos, Int.add_mul, Int.one_mul]
      omega
    rw [hruns]
    omega

/-- Of some starts of the service the search selects the one from which a run leaves first, if what it computes is
among them. -/
theorem firstDeparture?_selects (hservice : service.IsOfTrip) {starts : Time → Prop}
    (hstarts : ∀ first, starts first → service.Reaches first)
    (hfound : service.nth (service.runsBefore p floor) ≤ service.finish → starts (service.nth (service.runsBefore p floor)))
    (i : Nat) :
    Selects (Run.LeavesFirst p)
      (fun run => ∃ first, starts first ∧ run = Run.ofHeadway i service first ∧ floor ≤ run.departure p)
      ((service.firstDeparture? p floor).map (Run.ofHeadway i service)) := by
  rw [firstDeparture?_eq]
  split
  · rename_i hfinish
    refine ⟨⟨_, hfound hfinish, rfl, (le_departure_nth_iff hservice i).2 (Nat.le_refl _)⟩, ?_⟩
    rintro run ⟨first, hfirst, rfl, hfloor⟩
    obtain ⟨k, -, rfl⟩ := hstarts first hfirst
    have hle : service.nth (service.runsBefore p floor) ≤ service.nth k :=
      nth_mono ((le_departure_nth_iff hservice i).1 hfloor)
    rw [Run.leavesFirst_iff]
    rcases Int.lt_or_eq_of_le (Time.add_le_add (Time.le_refl (service.template.departure p)) hle) with hlt | heq
    · exact .inl hlt
    · exact .inr ⟨heq, Nat.le_refl _⟩
  · rename_i hfinish
    rintro run ⟨first, hfirst, rfl, hfloor⟩
    obtain ⟨k, hk, rfl⟩ := hstarts first hfirst
    exact hfinish (Time.le_trans (nth_mono ((le_departure_nth_iff hservice i).1 hfloor)) hk)

end Headway

namespace Route

variable {route : Route} {p : Position} {floor : Time}

/-- The runs of a route: its scheduled trips, and those of its headway services with these starts. -/
inductive RunsFrom (starts : Headway → Time → Prop) (route : Route) : Run → Prop
  | scheduled {i : Nat} {trip : Schedule} : route.trips[i]? = some trip → RunsFrom starts route (Run.ofTrip i trip)
  | headway {i : Nat} {service : Headway} {first : Time} : route.services[i]? = some service →
      starts service first → RunsFrom starts route (Run.ofHeadway i service first)

theorem RunsFrom.offers {run : Run} (h : route.RunsFrom Headway.Reaches run) : route.Offers run := by
  cases h with
  | scheduled htrip => exact .scheduled htrip
  | headway hservice hreaches =>
    obtain ⟨k, hfinish, rfl⟩ := hreaches
    exact .headway hservice (Headway.isRun_nth hfinish)

/-- The run is one of a headway service whose trip is accepted, and leaves position `p` at the floor or later. -/
def ServiceLeaves (starts : Headway → Time → Prop) (route : Route) (p : Position) (floor : Time)
    (accept : Schedule → Bool) (run : Run) : Prop :=
  ∃ i service first, route.services[i]? = some service ∧ starts service first ∧
    run = Run.ofHeadway i service first ∧ accept service.template = true ∧ floor ≤ run.departure p

/-- Of these starts of each accepted service the search selects the one from which a run leaves first. -/
def FindsStarts (starts : Headway → Time → Prop) (route : Route) (p : Position) (floor : Time)
    (accept : Schedule → Bool) : Prop :=
  ∀ s ∈ route.services, accept s.template = true → ∀ i, Selects (Run.LeavesFirst p)
    (fun run => ∃ first, starts s first ∧ run = Run.ofHeadway i s first ∧ floor ≤ run.departure p)
    ((s.firstDeparture? p floor).map (Run.ofHeadway i s))

/-- Whatever the floor, the search finds the starts that it can compute. -/
theorem findsStarts_reaches (hservices : ∀ s ∈ route.services, s.IsOfTrip) (p : Position) (floor : Time)
    (accept : Schedule → Bool) : route.FindsStarts Headway.Reaches p floor accept := fun s hs _ =>
  Headway.firstDeparture?_selects (hservices s hs) (fun _ h => h) fun hfinish => ⟨_, hfinish, rfl⟩

/-- The search selects the run that leaves first, and the lowest number of several services, whatever starts each
service has been selected from. -/
theorem earliestHeadway_selects {starts : Headway → Time → Prop} {accept : Schedule → Bool}
    (hstarts : route.FindsStarts starts p floor accept) :
    Selects (Run.LeavesFirst p) (route.ServiceLeaves starts p floor accept) (route.earliestHeadway p floor accept) := by
  have hstep : ∀ (best : Option Run) (s : Nat × Headway),
      (if accept s.2.template then
        Run.earlierOf p best ((s.2.firstDeparture? p floor).map (Run.ofHeadway s.1 s.2)) else best) =
      Run.earlierOf p best
        (if accept s.2.template then (s.2.firstDeparture? p floor).map (Run.ofHeadway s.1 s.2) else none) := by
    intro best s
    split
    · rfl
    · cases best <;> rfl
  unfold earliestHeadway
  simp only [hstep]
  refine (Run.foldl_earlierOf_selects (fun s run => accept s.2.template = true ∧
    ∃ first, starts s.2 first ∧ run = Run.ofHeadway s.1 s.2 first ∧ floor ≤ run.departure p) _ ?_ ?_).congr ?_
  · intro s hs
    obtain ⟨i, hi, rfl⟩ := List.mem_mapIdx.1 hs
    dsimp only
    split
    · rename_i hacc
      refine (hstarts _ ?_ hacc i).congr fun run => (and_iff_right hacc).symm
      exact Array.mem_of_getElem? (show route.services[i]? = some route.services.toList[i] by simp)
    · rename_i hacc
      exact fun run h => hacc h.1
  · rw [List.pairwise_iff_getElem]
    intro i j hi hj hij x y hx hy
    obtain ⟨-, -, -, rfl, -⟩ := hx
    obtain ⟨-, -, -, rfl, -⟩ := hy
    simpa [Run.ofHeadway, RunRef.number] using Nat.le_of_lt hij
  · intro run
    constructor
    · rintro ⟨s, hs, hacc, first, hfirst, rfl, hfloor⟩
      obtain ⟨i, hi, rfl⟩ := List.mem_mapIdx.1 hs
      exact ⟨i, _, first, by simp, hfirst, rfl, hacc, hfloor⟩
    · rintro ⟨i, service, first, hservice, hfirst, rfl, hacc, hfloor⟩
      obtain ⟨hi, rfl⟩ := Array.getElem?_eq_some_iff.1 hservice
      exact ⟨(i, route.services[i]), List.mem_mapIdx.2 ⟨i, by simpa using hi, by simp⟩, hacc, first, hfirst, rfl, hfloor⟩

end Route

end JourneyPlanner
