import JourneyPlanner.Cost.Weights
import JourneyPlanner.Network
import JourneyPlanner.Itinerary
/-!
# Pricing

A `Pricing` applies cost weights to one network. The search prices each step as it takes it, and
`Pricing.legsCost` prices the legs of a finished itinerary by the same rules.
-/
namespace JourneyPlanner

/-- Cost weights, and which routes of a network are unpreferred. -/
structure Pricing where
  weights : CostWeights
  unpreferred : Array Bool

namespace Pricing

/-- The weights applied to a network. -/
def ofWeights (weights : CostWeights) (net : Network) : Pricing where
  weights := weights
  unpreferred := net.routes.map fun r => weights.unpreferredRoutes.contains r.id

/-- Whether a route is to be avoided. -/
def isUnpreferred (pricing : Pricing) (route : RouteIndex) : Bool :=
  pricing.unpreferred.getD route false

/-- Whether a trip may be boarded at all. -/
def boardable (pricing : Pricing) (trip : Schedule) : Bool :=
  let a := pricing.weights.accessibility
  !(a.enabled && a.onlyAccessible && trip.accessibility == .notPossible)

/-- What a trip's accessibility adds to boarding it. -/
def accessibilityPenalty (pricing : Pricing) (accessibility : Accessibility) : Int :=
  let a := pricing.weights.accessibility
  if a.enabled then
    match accessibility with
    | .possible => 0
    | .noInformation => a.unknownCost
    | .notPossible => a.inaccessibleCost
  else 0

/-- The cost of waiting. A negative wait costs nothing. -/
def waitCost (pricing : Pricing) (secs : Int) : Int :=
  nearestCost (Float.ofInt (max secs 0) * pricing.weights.waitReluctance)

/-- The cost of boarding a trip. After a ride, the transfer and the wait for the trip cost too. -/
def boardingCost (pricing : Pricing) (afterRide : Bool) (wait : Int)
    (accessibility : Accessibility) : Int :=
  pricing.weights.board + pricing.accessibilityPenalty accessibility +
    (if afterRide then pricing.weights.transfer + pricing.waitCost wait else 0)

/-- The factor on the ride time of a reluctance number. -/
def transitFactor (pricing : Pricing) (reluctance : Nat) : Float :=
  pricing.weights.transitReluctance.getD reluctance 1.0

def rideCost (pricing : Pricing) (route : RouteIndex) (reluctance : Nat) (secs : Int) : Int :=
  nearestCost (Float.ofInt secs * pricing.transitFactor reluctance) +
    (if pricing.isUnpreferred route then pricing.weights.unpreferred.of secs else 0)

/-- The cost at boarding less what the ride would have cost since midnight. It compares passengers of
one trip fairly, wherever they boarded, because the cost of riding grows evenly with time. -/
def relativeCost (pricing : Pricing) (route : RouteIndex) (reluctance : Nat) (costAtBoard : Int)
    (boardTime : Time) : Float :=
  let slope :=
    if pricing.isUnpreferred route then
      pricing.transitFactor reluctance + pricing.weights.unpreferred.coefficient
    else pricing.transitFactor reluctance
  Float.ofInt costAtBoard - slope * Float.ofInt boardTime.secs

def distanceCost (pricing : Pricing) (metres : Option Nat) : Int :=
  match metres with
  | none => 0
  | some m => nearestCost (Float.ofNat m / 1000.0 * pricing.weights.transferPerKm)

def transferCost (pricing : Pricing) (transfer : Transfer) : Int :=
  transfer.cost + pricing.distanceCost transfer.metres

/-! ## Pricing legs -/

/-- What has been paid for the legs so far. -/
structure Bill where
  total : Int
  rides : Nat
  /-- When the leg before ended, from which the wait counts. It does not count from an access. -/
  waitingSince : Option Time
  deriving DecidableEq, Repr

def Bill.add (pricing : Pricing) (bill : Bill) : Leg → Bill
  | .access l => ⟨bill.total + l.cost, bill.rides + l.rides, none⟩
  | .ride l =>
    let wait := bill.waitingSince.elim 0 fun t => l.boardTime - t
    { total := bill.total + pricing.boardingCost (decide (0 < bill.rides)) wait l.accessibility +
        pricing.rideCost l.route l.reluctance (l.alightTime - l.boardTime)
      rides := bill.rides + 1
      waitingSince := some l.alightTime }
  | .transfer l => ⟨bill.total + l.cost, bill.rides, some l.arrival⟩
  | .egress l => ⟨bill.total + l.cost, bill.rides, some l.arrival⟩

def legsCost (pricing : Pricing) (legs : List Leg) : Int :=
  (legs.foldl (Bill.add pricing) ⟨0, 0, none⟩).total

end Pricing

end JourneyPlanner
