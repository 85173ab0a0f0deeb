import JourneyPlanner.Proofs.Earliest
/-!
# The earliest of all runs

The runs of a route are its scheduled trips and, of each headway service, every whole number of intervals
after the start that is no later than the finish (`Headway.Starts`, in exact seconds). The search over both
kinds selects the earliest of them, and its name leads back to it. It does so inside the range of times: outside
it a service that runs to the last time there is seems to have a run then
(`Headway.firstDeparture?_of_not_inRange`). The search of the scheduled trips gives what a scan of all of them
gives, whether it may bisect them or not.
-/
namespace JourneyPlanner

/-! ## The start that the search computes -/

namespace Headway

variable {service : Headway} {p : Position} {floor first : Time}

/-- A start in exact seconds is not cut off. -/
theorem Starts.eq_nth (h : service.Starts first) :
    ∃ k : Nat, first = service.nth k ∧ service.start.secs + k * service.interval ≤ 2147483647 := by
  obtain ⟨-, k, hk⟩ := h
  have h1 := first.upper
  refine ⟨k, Time.ext ?_, by omega⟩
  rw [secs_nth]
  omega

/-- A start in exact seconds is one of those that the search computes. -/
theorem Starts.reaches (h : service.Starts first) : service.Reaches first := by
  obtain ⟨k, rfl, -⟩ := h.eq_nth
  exact ⟨k, h.1, rfl⟩

/-- The start that the search computes lies inside the range of times, so far as a service that runs to the last
time there is needs it to. -/
def InRange (service : Headway) (p : Position) (floor : Time) : Prop :=
  service.finish.secs = 2147483647 →
    service.start.secs + service.runsBefore p floor * service.interval ≤ 2147483647

instance (service : Headway) (p : Position) (floor : Time) : Decidable (service.InRange p floor) :=
  inferInstanceAs (Decidable (_ → _))

theorem starts_nth_runsBefore (hrange : service.InRange p floor)
    (hfinish : service.nth (service.runsBefore p floor) ≤ service.finish) :
    service.Starts (service.nth (service.runsBefore p floor)) := by
  refine ⟨hfinish, service.runsBefore p floor, ?_⟩
  have hsecs := service.secs_nth (service.runsBefore p floor)
  have h1 := service.finish.upper
  rw [Time.le_iff] at hfinish
  -- A start that has been cut off is the last time there is, and the service runs to it.
  by_cases hlast : service.finish.secs = 2147483647
  · have := hrange hlast
    omega
  · omega

/-- Outside the range no run of the service leaves at the floor or later. The search does not say so: it answers with
the last time there is. -/
theorem firstDeparture?_of_not_inRange (hservice : service.IsOfTrip) (hrange : ¬ service.InRange p floor) :
    service.firstDeparture? p floor = some (.ofSecs 2147483647) ∧
      ∀ first i, service.Starts first → (Run.ofHeadway i service first).departure p < floor := by
  obtain ⟨hlast, hbeyond⟩ := Classical.not_imp.1 hrange
  constructor
  · have hnth : service.nth (service.runsBefore p floor) = .ofSecs 2147483647 := by
      apply Time.ext
      rw [secs_nth, Time.secs_ofSecs]
      omega
    rw [firstDeparture?_eq, hnth, if_pos]
    rw [Time.le_iff, hlast]
    decide
  · intro first i hstarts
    obtain ⟨k, rfl, hinside⟩ := hstarts.eq_nth
    refine Time.not_le.1 fun hfloor => hbeyond ?_
    have hruns : service.runsBefore p floor ≤ k := (le_departure_nth_iff hservice i).1 hfloor
    calc service.start.secs + service.runsBefore p floor * service.interval
        ≤ service.start.secs + k * service.interval :=
          Int.add_le_add_left (Int.mul_le_mul_of_nonneg_right (by omega) (Int.le_of_lt service.interval_pos)) _
      _ ≤ 2147483647 := hinside

/-- A shuttle from eight o'clock whose second run would leave after the last time there is. -/
def rareShuttle? : Except DataError Headway := do
  let trip ← Schedule.uniform ⟨"shuttle", by decide⟩ #[.hms 0 0 0, .hms 0 20 0]
  ofTrip trip (.hms 8 0 0) (.ofSecs 2147483647) 2147480000

-- Whoever asks after eight is given a run that the service itself does not know.
example : (rareShuttle?.toOption.map fun service =>
    (service.firstDeparture? 0 (.hms 8 21 0), service.isRun (.ofSecs 2147483647))) =
      some (some (.ofSecs 2147483647), false) := by
  decide +kernel

end Headway

namespace Route

variable {route : Route} {p : Position} {floor : Time} {run : Run}

/-- The run is a scheduled trip of the route or a run of one of its headway services. -/
abbrev HasRun (route : Route) (run : Run) : Prop := route.RunsFrom Headway.Starts run

/-- The name of a run leads back to it. -/
theorem run?_eq_of_hasRun (h : route.HasRun run) : route.run? run.ref = some run := by
  cases h with
  | scheduled htrip => exact run?_ofTrip htrip
  | headway hservice hstarts => rw [run?_ofHeadway hservice, if_pos (Headway.isRun_iff.2 hstarts)]

/-! ## The search over both kinds -/

/-- The runs that the search looks for are the accepted trips and the accepted headway runs. -/
theorem hasRun_accepted_iff (accept : Schedule → Bool) :
    route.HasRun run ∧ accept run.schedule = true ∧ floor ≤ run.departure p ↔
      route.TripLeaves p floor (fun _ => accept) run ∨ route.ServiceLeaves Headway.Starts p floor accept run := by
  constructor
  · rintro ⟨hrun, hacc, hfloor⟩
    cases hrun with
    | scheduled htrip => exact .inl ⟨_, _, htrip, rfl, hacc, Run.departure_ofTrip _ _ p ▸ hfloor⟩
    | headway hservice hstarts => exact .inr ⟨_, _, _, hservice, hstarts, rfl, hacc, hfloor⟩
  · rintro (⟨i, trip, htrip, rfl, hacc, hfloor⟩ | ⟨i, service, first, hservice, hstarts, rfl, hacc, hfloor⟩)
    · exact ⟨.scheduled htrip, hacc, (Run.departure_ofTrip i trip p).symm ▸ hfloor⟩
    · exact ⟨.headway hservice hstarts, hacc, hfloor⟩

/-- Where the starts lie inside the range of times, the search finds them. -/
theorem findsStarts_of_inRange (hservices : ∀ s ∈ route.services, s.IsOfTrip) {accept : Schedule → Bool}
    (hrange : ∀ s ∈ route.services, accept s.template = true → s.InRange p floor) :
    route.FindsStarts Headway.Starts p floor accept := fun s hs hacc =>
  Headway.firstDeparture?_selects (hservices s hs) (fun _ h => h.reaches)
    (Headway.starts_nth_runsBefore (hrange s hs hacc))

/-- Of all accepted runs that leave the position at the floor or later, the search finds one that leaves first:
a scheduled trip if one does, of several the one with the lowest number, else a run of the headway service with
the lowest number. It finds none just if there is none, and the name of what it finds leads back to it. -/
theorem earliestRun?_selects (hservices : ∀ s ∈ route.services, s.IsOfTrip) (hp : p < route.pattern.size)
    (accept : Schedule → Bool) (hrange : ∀ s ∈ route.services, accept s.template = true → s.InRange p floor) :
    ∃ found, route.earliestRun? p floor accept = .ok found ∧
      Selects (Run.Precedes (fun run => run.isHeadway.toNat) p)
        (fun run => route.HasRun run ∧ accept run.schedule = true ∧ floor ≤ run.departure p) found ∧
      ∀ run, found = some run → route.run? run.ref = some run := by
  have htrips : Selects (Run.LeavesFirst p) (route.TripLeaves p floor fun _ => accept) _ :=
    earliestScheduled_selects hp _
  have hruns := earliestHeadway_selects (findsStarts_of_inRange hservices hrange)
  have hselects : Selects (Run.Precedes (fun run => run.isHeadway.toNat) p)
      (fun run => route.HasRun run ∧ accept run.schedule = true ∧ floor ≤ run.departure p)
      (route.earliestRun p floor accept) := by
    refine (Run.earlierOf_selects (Run.selects_of_sameRank htrips ?_) hruns ?_ ?_).congr fun run =>
      (hasRun_accepted_iff accept).symm
    · rintro x y ⟨i, trip, -, rfl, -⟩ ⟨j, trip', -, rfl, -⟩
      rfl
    · rintro x y ⟨i, service, first, -, -, rfl, -⟩ - ⟨j, service', first', -, -, rfl, -⟩ -
      rfl
    · rintro x y ⟨i, trip, -, rfl, -⟩ ⟨j, service, first, -, -, rfl, -⟩ - heq
      exact .inr ⟨heq, .inl Nat.zero_lt_one⟩
  refine ⟨_, ?_, hselects, fun run hrun => run?_eq_of_hasRun (hselects.eligible_of_eq hrun).1⟩
  unfold earliestRun? atPosition
  rw [if_pos (by simp [hp])]

/-- A bus at twenty past eight, and a shuttle every ten minutes from eight to nine. -/
def causeway? : Except DataError Route := do
  let bus ← Schedule.uniform ⟨"bus", by decide⟩ #[.hms 8 20 0, .hms 8 40 0]
  let shuttle ← Schedule.uniform ⟨"shuttle", by decide⟩ #[.hms 0 0 0, .hms 0 15 0]
  let service ← Headway.ofTrip shuttle (.hms 8 0 0) (.hms 9 0 0) 600
  let pattern ← StopPattern.ofStops "causeway" #[0, 1]
  ofTimetable 0 ⟨"causeway", by decide⟩ .bus pattern [bus] [service]

theorem services_causeway (h : causeway? = .ok route) : ∀ s ∈ route.services, s.IsOfTrip := by
  obtain ⟨bus, -, h⟩ := of_bind_eq_ok h
  obtain ⟨shuttle, -, h⟩ := of_bind_eq_ok h
  obtain ⟨service, hservice, h⟩ := of_bind_eq_ok h
  obtain ⟨pattern, -, h⟩ := of_bind_eq_ok h
  intro s hs
  obtain rfl := List.mem_singleton.1 ((index_ofTimetable h).2.2 s hs)
  exact ⟨_, _, _, _, hservice⟩

/-- No trip that is known to be closed to wheelchairs. -/
def admitsWheelchair (trip : Schedule) : Bool := decide (trip.accessibility ≠ .notPossible)

/-- The bus and the shuttle of twenty past eight leave together, and the bus wins. -/
theorem bus_before_shuttle : ∃ route, causeway? = .ok route ∧ (∀ s ∈ route.services, s.IsOfTrip) ∧
    0 < route.pattern.size ∧
    (∀ s ∈ route.services, admitsWheelchair s.template = true → s.InRange 0 (.hms 8 11 0)) ∧
    ∃ found, route.earliestRun? 0 (.hms 8 11 0) admitsWheelchair = .ok found ∧
      Selects (Run.Precedes (fun run => run.isHeadway.toNat) 0)
        (fun run => route.HasRun run ∧ admitsWheelchair run.schedule = true ∧ .hms 8 11 0 ≤ run.departure 0) found ∧
      (∀ run, found = some run → route.run? run.ref = some run) ∧ found.map Run.ref = some (.scheduled 0) := by
  have heval : (causeway?.toOption.map fun route => decide (0 < route.pattern.size ∧
      (∀ s ∈ route.services, admitsWheelchair s.template = true → s.InRange 0 (.hms 8 11 0)) ∧
        ((route.earliestRun? 0 (.hms 8 11 0) admitsWheelchair).toOption.map fun found => found.map Run.ref) =
          some (some (.scheduled 0)))) = some true := by decide +kernel
  cases hroute : causeway? with
  | error e => rw [hroute] at heval; cases heval
  | ok route =>
    rw [hroute] at heval
    obtain ⟨hsize, hrange, hbus⟩ := of_decide_eq_true (Option.some.inj heval)
    have hservices := services_causeway hroute
    obtain ⟨found, hfound, hselects, hrun⟩ := earliestRun?_selects hservices hsize admitsWheelchair hrange
    refine ⟨route, rfl, hservices, hsize, hrange, found, hfound, hselects, hrun, ?_⟩
    rw [hfound] at hbus
    exact Option.some.inj hbus

/-! ## The scheduled trips -/

/-- What a scan of all trips selects. -/
def scanTrips (route : Route) (p : Position) (floor : Time) (accept : Nat → Schedule → Bool) : Option Run :=
  (scan p floor accept (route.tripsFrom 0)).map fun t => Run.ofTrip t.1 t.2

/-- The first accepted one of the trips that a bisection leaves. -/
def bisectTrips (route : Route) (p : Position) (floor : Time) (accept : Nat → Schedule → Bool) : Option Run :=
  ((route.tripsFrom (bisect route.trips.size (route.leavesBefore p floor))).find? fun t => accept t.1 t.2).map
    fun t => Run.ofTrip t.1 t.2

theorem earliestScheduled_eq (accept : Nat → Schedule → Bool) : route.earliestScheduled p floor accept =
    if route.ordered then route.bisectTrips p floor accept else route.scanTrips p floor accept := rfl

/-- Two trips of a route that leave first are the same trip. -/
theorem TripLeaves.eq_of_leavesFirst {accept : Nat → Schedule → Bool} {a b : Run}
    (ha : route.TripLeaves p floor accept a) (hb : route.TripLeaves p floor accept b)
    (hab : Run.LeavesFirst p a b) (hba : Run.LeavesFirst p b a) : a = b := by
  obtain ⟨i, trip, htrip, rfl, -⟩ := ha
  obtain ⟨j, trip', htrip', rfl, -⟩ := hb
  rw [Run.leavesFirst_iff] at hab hba
  have hij : i = j := by
    simp only [Run.ofTrip, RunRef.number] at hab hba
    omega
  subst hij
  rw [Option.some.inj (htrip.symm.trans htrip')]

/-- The search of the scheduled trips gives what a scan of all of them gives: of the accepted trips that leave the
position at the floor or later, the one that leaves first, and of several the one with the lowest number. Where the
trips are in order at every position, so does the bisection. -/
theorem earliestScheduled?_eq_scan (hp : p < route.pattern.size) (floor : Time) (accept : Nat → Schedule → Bool) :
    route.earliestScheduled? p floor accept = .ok (route.scanTrips p floor accept) ∧
    Selects (Run.LeavesFirst p) (route.TripLeaves p floor accept) (route.scanTrips p floor accept) ∧
    (route.ordered = true → route.bisectTrips p floor accept = route.scanTrips p floor accept) := by
  have hscan : Selects (Run.LeavesFirst p) (route.TripLeaves p floor accept) (route.scanTrips p floor accept) :=
    scan_selects accept
  have hbisect : route.ordered = true → route.bisectTrips p floor accept = route.scanTrips p floor accept := fun hord =>
    (find?_tripsFrom_selects hord hp accept).unique hscan fun _ _ => TripLeaves.eq_of_leavesFirst
  refine ⟨?_, hscan, hbisect⟩
  unfold earliestScheduled? atPosition
  rw [if_pos (by simp [hp]), earliestScheduled_eq]
  split
  · rename_i hord
    rw [hbisect hord]
  · rfl

/-- A slow bus, and a fast one that overtakes it. -/
def overtaking? : Except DataError Route := do
  let slow ← Schedule.uniform ⟨"slow", by decide⟩ #[.hms 8 0 0, .hms 8 30 0, .hms 9 0 0]
  let fast ← Schedule.uniform ⟨"fast", by decide⟩ #[.hms 8 10 0, .hms 8 20 0, .hms 8 40 0]
  let pattern ← StopPattern.ofStops "pass" #[0, 1, 2]
  ofTimetable 0 ⟨"pass", by decide⟩ .bus pattern [slow, fast] []

/-- Whoever waits at the pass boards the bus that has overtaken the other. -/
theorem fast_bus_at_pass : ∃ route, overtaking? = .ok route ∧ route.ordered = false ∧ 1 < route.pattern.size ∧
    route.earliestScheduled? 1 (.hms 8 15 0) (fun _ _ => true) =
      .ok (route.scanTrips 1 (.hms 8 15 0) fun _ _ => true) ∧
    Selects (Run.LeavesFirst 1) (route.TripLeaves 1 (.hms 8 15 0) fun _ _ => true)
      (route.scanTrips 1 (.hms 8 15 0) fun _ _ => true) ∧
    (route.ordered = true → route.bisectTrips 1 (.hms 8 15 0) (fun _ _ => true) =
      route.scanTrips 1 (.hms 8 15 0) fun _ _ => true) ∧
    (route.scanTrips 1 (.hms 8 15 0) fun _ _ => true).map Run.ref = some (.scheduled 1) := by
  have heval : (overtaking?.toOption.map fun route => decide (route.ordered = false ∧ 1 < route.pattern.size ∧
      (route.scanTrips 1 (.hms 8 15 0) fun _ _ => true).map Run.ref = some (.scheduled 1))) = some true := by
    simp only [overtaking?, ofTimetable, mergeSort_pair]
    decide +kernel
  cases hroute : overtaking? with
  | error e => rw [hroute] at heval; cases heval
  | ok route =>
    rw [hroute] at heval
    obtain ⟨hordered, hsize, hfast⟩ := of_decide_eq_true (Option.some.inj heval)
    obtain ⟨hfound, hselects, hbisect⟩ := earliestScheduled?_eq_scan hsize (.hms 8 15 0) fun _ _ => true
    exact ⟨route, rfl, hordered, hsize, hfound, hselects, hbisect, hfast⟩

end Route

end JourneyPlanner
