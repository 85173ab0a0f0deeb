import JourneyPlanner.Headway
import JourneyPlanner.StopPattern
import JourneyPlanner.Bisect
/-!
# Routes and their timetables

A `Route` is a pattern of stops with the scheduled trips and headway services that run on it. A `Run`
is one passage of a vehicle: a scheduled trip, or one departure of a headway service. The three
searches `earliestScheduled`, `earliestHeadway` and `earliestRun` find the run that leaves a position
first.
-/
namespace JourneyPlanner

/-- Names a run within its route: a scheduled trip by its number, a run of a headway service by the
service's number and the run's first departure. -/
inductive RunRef where
  | scheduled (trip : Nat)
  | headway (service : Nat) (first : Time)
  deriving DecidableEq, Repr

/-- One passage of a vehicle along the pattern of a route. -/
structure Run where
  ref : RunRef
  schedule : Schedule
  /-- How much later than its schedule the vehicle runs. -/
  offset : Int
  /-- How much later than that the passenger counts on arriving. -/
  margin : Int
  deriving DecidableEq

namespace Run

/-- The passage of a scheduled trip. -/
def ofTrip (i : Nat) (trip : Schedule) : Run := ⟨.scheduled i, trip, 0, 0⟩

/-- The passage of a headway service that starts at `first`. It may leave any time within one
interval, so its arrivals count one interval later. -/
def ofHeadway (i : Nat) (service : Headway) (first : Time) : Run :=
  ⟨.headway i first, service.template, first.secs, service.interval⟩

/-- The arrival at a position that the passenger counts on. -/
def arrival (run : Run) (p : Position) : Time := run.schedule.arrival p + (run.offset + run.margin)

def departure (run : Run) (p : Position) : Time := run.schedule.departure p + run.offset

/-- The trip's identifier. -/
def id (run : Run) : TripId := run.schedule.id

/-- Whether the run belongs to a headway service. -/
def isHeadway (run : Run) : Bool :=
  match run.ref with
  | .scheduled _ => false
  | .headway _ _ => true

/-- Of two runs the one that leaves position `p` first, and `a` when they leave together. -/
def earlierOf (p : Position) : Option Run → Option Run → Option Run
  | some a, some b => if b.departure p < a.departure p then some b else some a
  | some a, none => some a
  | none, b => b

end Run

/-- No trip of the list overtakes the one before it, or leaves or arrives anywhere before it. -/
def InOrder (trips : List Schedule) (positions : Nat) : Prop :=
  match trips with
  | [] => True
  | trip :: rest =>
    (∀ next ∈ rest.head?, ∀ p < positions,
      trip.departure p ≤ next.departure p ∧ trip.arrival p ≤ next.arrival p) ∧
      InOrder rest positions

/-- Decides `InOrder` pair by pair. -/
def decideInOrder (trips : List Schedule) (positions : Nat) : Decidable (InOrder trips positions) :=
  match trips with
  | [] => isTrue trivial
  | _ :: rest =>
    have := decideInOrder rest positions
    inferInstanceAs (Decidable (_ ∧ _))

instance (trips : List Schedule) (positions : Nat) : Decidable (InOrder trips positions) :=
  decideInOrder trips positions

/-- A pattern of stops and what runs on it. -/
structure Route where
  index : RouteIndex
  id : RouteId
  mode : Mode
  pattern : StopPattern
  /-- The scheduled trips by their departure from the first position. -/
  trips : Array Schedule
  /-- The headway services by their start. -/
  services : Array Headway
  /-- Whether the trips keep their order at every position. -/
  ordered : Bool
  /-- The positions at which some change between trips boards under terms of its own. -/
  termsAt : List Position
  trip_size : ∀ t ∈ trips, t.size = pattern.size
  service_size : ∀ s ∈ services, s.template.size = pattern.size
  ordered_iff : ordered = true ↔ InOrder trips.toList pattern.size
  deriving DecidableEq

namespace Route

/-- The first of some sizes that is not the expected one. -/
def wrongSize? (expected : Nat) (sizes : List Nat) : Option Nat := sizes.find? (· ≠ expected)

/-- A route from its timetable, which is put in order. Trips that leave the first position together,
and services that start together, keep the order in which they are given. -/
def ofTimetable (index : RouteIndex) (id : RouteId) (mode : Mode) (pattern : StopPattern)
    (trips : List Schedule) (services : List Headway) : Except DataError Route :=
  if trips.isEmpty && services.isEmpty then .error (.emptyRoute id)
  else
    match h : wrongSize? pattern.size
        (trips.map Schedule.size ++ services.map fun s => s.template.size) with
    | some n => .error (.timesLengthMismatch pattern.size n)
    | none =>
      let sortedTrips := trips.mergeSort fun a b => decide (a.departure 0 ≤ b.departure 0)
      let sortedServices := services.mergeSort fun a b => decide (a.start ≤ b.start)
      .ok
        { index, id, mode, pattern
          trips := sortedTrips.toArray
          services := sortedServices.toArray
          ordered := decide (InOrder sortedTrips pattern.size)
          termsAt := []
          trip_size := by
            intro t ht
            have hm : t ∈ trips := by simpa [sortedTrips] using ht
            have := List.find?_eq_none.1 h t.size
              (List.mem_append_left _ (List.mem_map.2 ⟨t, hm, rfl⟩))
            simpa using this
          service_size := by
            intro s hs
            have hm : s ∈ services := by simpa [sortedServices] using hs
            have := List.find?_eq_none.1 h s.template.size
              (List.mem_append_right _ (List.mem_map.2 ⟨s, hm, rfl⟩))
            simpa using this
          ordered_iff := by simp }

/-- Notes that some change boards the route at `p` under terms of its own. -/
def markTerms (route : Route) (p : Position) : Route :=
  if p < route.pattern.size ∧ p ∉ route.termsAt then
    { route with termsAt := route.termsAt ++ [p] }
  else route

/-- Whether some change boards the route at `p` under terms of its own. -/
def hasTermsAt (route : Route) (p : Position) : Bool := route.termsAt.contains p

/-- The passage of the scheduled trip of the given number. -/
def scheduled? (route : Route) (i : Nat) : Option Run := (route.trips[i]?).map (Run.ofTrip i)

/-- The run of the given name, if the timetable has it. -/
def run? (route : Route) : RunRef → Option Run
  | .scheduled i => route.scheduled? i
  | .headway i first =>
    match route.services[i]? with
    | some service => if service.isRun first then some (Run.ofHeadway i service first) else none
    | none => none

/-! ## The earliest run -/

/-- The trips from number `i` on, with their numbers. -/
def tripsFrom (route : Route) (i : Nat) : List (Nat × Schedule) :=
  (route.trips.toList.drop i).mapIdx fun k trip => (i + k, trip)

/-- Whether the trip `a` of the two may replace the best trip found so far: it leaves `p` earlier. -/
def improvesOn (p : Position) (best : Option (Nat × Schedule)) (trip : Schedule) : Bool :=
  match best with
  | none => true
  | some b => decide (trip.departure p < b.2.departure p)

/-- The trip among numbered trips that leaves `p` first, at `floor` or later, and is accepted. The
first of several wins. -/
def scan (p : Position) (floor : Time) (accept : Nat → Schedule → Bool)
    (trips : List (Nat × Schedule)) : Option (Nat × Schedule) :=
  trips.foldl
    (fun best t =>
      if decide (floor ≤ t.2.departure p) && improvesOn p best t.2 && accept t.1 t.2 then some t
      else best)
    none

/-- The scheduled trip that leaves position `p` first, at `floor` or later, of those that `accept`
takes; the lowest number wins when several leave together. `accept` may ask for more than `floor`. -/
def earliestScheduled (route : Route) (p : Position) (floor : Time)
    (accept : Nat → Schedule → Bool) : Option Run :=
  if route.ordered then
    let start := bisect route.trips.size fun i =>
      (route.trips[i]?).any fun trip => decide (trip.departure p < floor)
    ((route.tripsFrom start).find? fun t => accept t.1 t.2).map fun t => Run.ofTrip t.1 t.2
  else
    (scan p floor accept (route.tripsFrom 0)).map fun t => Run.ofTrip t.1 t.2

/-- The run of a headway service that leaves position `p` first, at `floor` or later, of those whose
trip `accept` takes; the lowest number wins when several leave together. -/
def earliestHeadway (route : Route) (p : Position) (floor : Time) (accept : Schedule → Bool) :
    Option Run :=
  (route.services.toList.mapIdx fun i service => (i, service)).foldl
    (fun best s =>
      if accept s.2.template then
        Run.earlierOf p best ((s.2.firstDeparture? p floor).map (Run.ofHeadway s.1 s.2))
      else best)
    none

/-- The run of either kind that leaves position `p` first, at `floor` or later; a scheduled trip
wins when both kinds leave together. -/
def earliestRun (route : Route) (p : Position) (floor : Time) (accept : Schedule → Bool) :
    Option Run :=
  Run.earlierOf p (route.earliestScheduled p floor fun _ => accept)
    (route.earliestHeadway p floor accept)

/-! ## Positions outside the pattern -/

/-- Whether a search among the scheduled trips reads a time at a position. -/
def readsTrips (route : Route) : Bool := !route.trips.isEmpty

/-- Whether a search among the headway services reads a time at a position. -/
def readsServices (route : Route) (accept : Schedule → Bool) : Bool :=
  route.services.any fun s => accept s.template

/-- The answer of a search at position `p`, which fails when it reads a time outside the pattern. -/
def atPosition (route : Route) (p : Position) (reads : Bool) (answer : Option Run) :
    Except OutOfRange (Option Run) :=
  if p < route.pattern.size || !reads then .ok answer else .error (.position p)

/-- `earliestScheduled` at any position. -/
def earliestScheduled? (route : Route) (p : Position) (floor : Time)
    (accept : Nat → Schedule → Bool) : Except OutOfRange (Option Run) :=
  route.atPosition p route.readsTrips (route.earliestScheduled p floor accept)

/-- `earliestHeadway` at any position. -/
def earliestHeadway? (route : Route) (p : Position) (floor : Time) (accept : Schedule → Bool) :
    Except OutOfRange (Option Run) :=
  route.atPosition p (route.readsServices accept) (route.earliestHeadway p floor accept)

/-- `earliestRun` at any position. -/
def earliestRun? (route : Route) (p : Position) (floor : Time) (accept : Schedule → Bool) :
    Except OutOfRange (Option Run) :=
  route.atPosition p (route.readsTrips || route.readsServices accept)
    (route.earliestRun p floor accept)

end Route

end JourneyPlanner
