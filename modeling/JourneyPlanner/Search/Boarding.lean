import JourneyPlanner.Search.Task
import JourneyPlanner.Search.Arrival
/-!
# Which run to board

Without terms of its own a change boards the earliest run after the slack. Where the trip that the
passenger has left has terms with a trip of the route, that trip may be forbidden, may be boarded
sooner or only later, or waits for the passenger.
-/
namespace JourneyPlanner

/-- The scheduled trip that a passenger has left, and when. -/
structure AlightedTrip where
  call : TripCall
  time : Time
  deriving DecidableEq, Repr

/-- The trip that a passenger has left with this arrival, if it is scheduled. -/
def Arrival.alighted? (a : Arrival) : Option AlightedTrip :=
  match a.via with
  | .ride route (.scheduled trip) _ position _ => some ⟨⟨route, trip, position⟩, a.time⟩
  | _ => none

/-- The trip that a passenger has left to make this arrival, directly or before a transfer. -/
def ArrivalLog.alighted? (log : ArrivalLog) (a : Arrival) :
    Except OutOfRange (Option AlightedTrip) :=
  match a.via, a.parent with
  | .ride .., _ => .ok a.alighted?
  | .transfer .., some parent => (log.get? parent).map Arrival.alighted?
  | _, _ => .ok none

/-! ## Terms of one boarding -/

/-- What the passenger's last trip says about boarding a route at one position. -/
structure BoardingTerms where
  /-- The rules for trips of the route, by their numbers. -/
  rules : List (Nat × ConnectionRule)
  /-- When the passenger left the last trip. -/
  alightTime : Time
  /-- When the passenger is at the stop. -/
  arrivalTime : Time
  deriving DecidableEq, Repr

namespace BoardingTerms

def rule? (terms : BoardingTerms) (trip : Nat) : Option ConnectionRule :=
  (terms.rules.find? fun r => r.1 = trip).map (·.2)

/-- The earliest departure under a least duration of the change. -/
def minimumFloor (terms : BoardingTerms) (secs : Int) : Time :=
  max terms.arrivalTime (terms.alightTime + secs)

/-- The earliest departure under any of the rules, or the usual one if that is earlier. -/
def searchFloor (terms : BoardingTerms) (floor : Time) : Time :=
  terms.rules.foldl
    (fun t r =>
      match r.2 with
      | .minimumTime secs => min t (terms.minimumFloor secs)
      | _ => t)
    floor

/-- Whether a trip may be boarded when it leaves at `departure`. A trip that waits is boarded like any
other one here, and apart from this whenever it leaves. -/
def allows (terms : BoardingTerms) (floor : Time) (trip : Nat) (departure : Time) : Bool :=
  match terms.rule? trip with
  | some .notAllowed => false
  | some (.minimumTime secs) => decide (terms.minimumFloor secs ≤ departure)
  | some .guaranteed => decide (floor ≤ departure)
  | none => decide (floor ≤ departure)

/-- The numbers of the trips that wait. -/
def waiting (terms : BoardingTerms) : List Nat :=
  (terms.rules.filter fun r => r.2 = .guaranteed).map (·.1)

end BoardingTerms

/-- Of two runs of scheduled trips the one that leaves position `p` first, or the one with the lower
number when they leave together. -/
def earlierTrip (p : Position) (best : Option (Nat × Schedule)) (t : Nat × Schedule) :
    Option (Nat × Schedule) :=
  match best with
  | none => some t
  | some b =>
    if t.2.departure p < b.2.departure p then some t
    else if t.2.departure p = b.2.departure p ∧ t.1 < b.1 then some t
    else some b

/-- The first of some trips of a route to leave position `p`, of those that `accept` takes. -/
def Route.earliestOf (route : Route) (p : Position) (trips : List Nat)
    (accept : Schedule → Bool) : Option Run :=
  let known := trips.filterMap fun i => (route.trips[i]?).map fun trip => (i, trip)
  ((known.filter fun t => accept t.2).foldl (earlierTrip p) none).map fun t => Run.ofTrip t.1 t.2

/-! ## Boarding -/

namespace Task

def boardingTerms (task : Task) (route : Route) (p : Position) (arrivalTime : Time)
    (last : AlightedTrip) : BoardingTerms where
  rules :=
    (task.network.connections.boarding last.call route.index p).map fun t => (t.1, t.2.rule)
  alightTime := last.time
  arrivalTime := arrivalTime

def boardUnderTerms (task : Task) (route : Route) (p : Position) (floor : Time)
    (terms : BoardingTerms) : Option Run :=
  let boardable := task.pricing.boardable
  let scheduled :=
    route.earliestScheduled p (terms.searchFloor floor) fun i trip =>
      boardable trip && terms.allows floor i (trip.departure p)
  let waiting := route.earliestOf p terms.waiting boardable
  Run.earlierOf p (Run.earlierOf p waiting scheduled) (route.earliestHeadway p floor boardable)

/-- The run of a route that a passenger boards at position `p` after an arrival. -/
def board? (task : Task) (route : Route) (p : Position) (a : Arrival)
    (last : Option AlightedTrip) : Option Run :=
  let floor := task.settings.boardingFloor a.time a.rides
  match last with
  | none => route.earliestRun p floor task.pricing.boardable
  | some last =>
    if route.hasTermsAt p then
      task.boardUnderTerms route p floor (task.boardingTerms route p a.time last)
    else route.earliestRun p floor task.pricing.boardable

/-- Whether the sums fit that a boarding needs: the slack, and those of each headway service whose trip
may be boarded. -/
def sumsFit (task : Task) (route : Route) (p : Position) (a : Arrival) : Bool :=
  Time.fits (task.settings.slackAfter a.rides) && route.services.all fun s =>
    !task.pricing.boardable s.template || s.sumsFit p (task.settings.boardingFloor a.time a.rides)

/-- The run that a passenger boards, as `board?` has it. The search stops where a sum does not fit. -/
def findRun (task : Task) (route : Route) (p : Position) (a : Arrival) (last : Option AlightedTrip) :
    Except OutOfRange (Option Run) :=
  if task.sumsFit route p a then .ok (task.board? route p a last) else .error .sum

end Task

end JourneyPlanner
