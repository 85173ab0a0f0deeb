import JourneyPlanner.Route
/-!
# Itineraries

An `Itinerary` is a row of legs: one from the origin to a stop, rides and transfers that each start
where the leg before ended, and one from the last stop to the destination. Itineraries are compared
on arrival, transfers and cost, and over a range of departures on the departure as well.
-/
namespace JourneyPlanner

/-- A leg between the origin or the destination and a stop. -/
structure StreetLeg where
  stop : Stop
  departure : Time
  arrival : Time
  cost : Int
  rides : Nat
  deriving DecidableEq, Repr

/-- A ride on one run between two positions of its pattern. -/
structure RideLeg where
  route : RouteIndex
  routeId : RouteId
  mode : Mode
  run : RunRef
  tripId : TripId
  boardPosition : Position
  alightPosition : Position
  boardStop : Stop
  alightStop : Stop
  boardTime : Time
  alightTime : Time
  reluctance : Nat
  accessibility : Accessibility
  deriving DecidableEq, Repr

/-- A walk between two stops. -/
structure TransferLeg where
  source : Stop
  target : Stop
  departure : Time
  arrival : Time
  cost : Int
  metres : Option Nat
  deriving DecidableEq, Repr

/-- The seconds that a walk takes. -/
def TransferLeg.duration (l : TransferLeg) : Int := l.arrival - l.departure

/-- One leg of an itinerary. -/
inductive Leg where
  | access (leg : StreetLeg)
  | ride (leg : RideLeg)
  | transfer (leg : TransferLeg)
  | egress (leg : StreetLeg)
  deriving DecidableEq, Repr

namespace Leg

/-- When the leg starts. -/
def departure : Leg → Time
  | .access l => l.departure
  | .ride l => l.boardTime
  | .transfer l => l.departure
  | .egress l => l.departure

/-- When the leg ends. -/
def arrival : Leg → Time
  | .access l => l.arrival
  | .ride l => l.alightTime
  | .transfer l => l.arrival
  | .egress l => l.arrival

def endStop? : Leg → Option Stop
  | .access l => some l.stop
  | .ride l => some l.alightStop
  | .transfer l => some l.target
  | .egress _ => none

/-- The rides that the leg counts for. -/
def rides : Leg → Nat
  | .access l => l.rides
  | .ride _ => 1
  | .transfer _ => 0
  | .egress l => l.rides

def ride? : Leg → Option RideLeg
  | .ride l => some l
  | _ => none

end Leg

/-- The stop at which a row of rides and transfers that starts at `stop` ends. -/
def endOfMiddle (stop : Stop) : List Leg → Except LegsDefect Stop
  | [] => .ok stop
  | .ride l :: rest =>
    if l.boardStop = stop then endOfMiddle l.alightStop rest else .error .notContiguous
  | .transfer l :: rest =>
    if l.source = stop then endOfMiddle l.target rest else .error .notContiguous
  | _ :: _ => .error .streetLegInside

/-- A journey from the origin to the destination. -/
structure Itinerary where
  legs : List Leg
  departure : Time
  arrival : Time
  /-- One less than the rides, zero without rides. -/
  transfers : Nat
  cost : Int
  deriving DecidableEq, Repr

namespace Itinerary

/-- The number of rides of a row of legs. -/
def rideCount : List Leg → Nat
  | [] => 0
  | leg :: legs => leg.rides + rideCount legs

def ofLegs (legs : List Leg) (cost : Int) : Except LegsDefect Itinerary :=
  match legs.head?, legs.getLast? with
  | some (.access first), some (.egress last) =>
    match endOfMiddle first.stop legs.tail.dropLast with
    | .error e => .error e
    | .ok stop =>
      if last.stop = stop then
        .ok
          { legs, cost
            departure := first.departure
            arrival := last.arrival
            transfers := rideCount legs - 1 }
      else .error .egressElsewhere
  | _, _ => .error .ends

/-- The rides, in the order of travel. -/
def rides (it : Itinerary) : List RideLeg := it.legs.filterMap Leg.ride?

/-- The seconds from departure to arrival. -/
def duration (it : Itinerary) : Int := it.arrival - it.departure

/-! ## Comparing itineraries -/

/-- At least as good as `b` on arrival, transfers and cost. -/
def AtLeastAsGood (a b : Itinerary) : Prop :=
  a.arrival ≤ b.arrival ∧ a.transfers ≤ b.transfers ∧ a.cost ≤ b.cost

/-- Better than `b` on arrival, transfers or cost. -/
def BetterSomewhere (a b : Itinerary) : Prop :=
  a.arrival < b.arrival ∨ a.transfers < b.transfers ∨ a.cost < b.cost

instance (a b : Itinerary) : Decidable (a.AtLeastAsGood b) :=
  inferInstanceAs (Decidable (_ ∧ _ ∧ _))

instance (a b : Itinerary) : Decidable (a.BetterSomewhere b) :=
  inferInstanceAs (Decidable (_ ∨ _ ∨ _))

/-- At least as good on every criterion and better on one. -/
def dominates (a b : Itinerary) : Bool := decide (a.AtLeastAsGood b) && decide (a.BetterSomewhere b)

/-- `dominates` with a later departure as one more criterion. -/
def dominatesInRange (a b : Itinerary) : Bool :=
  decide (b.departure ≤ a.departure) && decide (a.AtLeastAsGood b) &&
    (decide (b.departure < a.departure) || decide (a.BetterSomewhere b))

end Itinerary

end JourneyPlanner
