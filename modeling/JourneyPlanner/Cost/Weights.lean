import JourneyPlanner.DataError
/-!
# Weights of the generalized cost

One unit of cost is about one second in a vehicle. `CostWeights` says what boarding, waiting, riding
and walking cost; `CostWeights.check` refuses weights that would let the cost of a journey fall.
-/
namespace JourneyPlanner

/-- The whole number nearest to `x`, halves away from zero, within 32 bits with a sign. A value that
is not a number gives zero. -/
def nearestCost (x : Float) : Int := x.round.toInt32.toInt

/-- A cost of `constant + coefficient * t` for `t` seconds. -/
structure LinearCost where
  constant : Int
  coefficient : Float

/-- The linear cost of so many seconds, to the nearest unit. -/
def LinearCost.of (f : LinearCost) (secs : Int) : Int :=
  f.constant + nearestCost (f.coefficient * Float.ofInt secs)

/-- How a journey takes the accessibility of trips into account. -/
structure AccessibilityWeights where
  enabled : Bool
  /-- Whether trips that are known to be inaccessible must not be boarded. -/
  onlyAccessible : Bool
  unknownCost : Int
  inaccessibleCost : Int

/-- What the parts of a journey cost. -/
structure CostWeights where
  /-- For every boarding. -/
  board : Int
  /-- For every boarding after the first ride. -/
  transfer : Int
  /-- For every kilometre of a transfer of known length. -/
  transferPerKm : Float
  /-- For every second of waiting between rides. -/
  waitReluctance : Float
  /-- For every second of riding, by the reluctance number of the trip; one where it is missing. -/
  transitReluctance : List Float
  unpreferredRoutes : List RouteId
  /-- For riding an unpreferred route. -/
  unpreferred : LinearCost
  accessibility : AccessibilityWeights

/-- The usual weights. -/
def CostWeights.standard : CostWeights where
  board := 600
  transfer := 0
  transferPerKm := 0.0
  waitReluctance := 1.0
  transitReluctance := []
  unpreferredRoutes := []
  unpreferred := ⟨0, 1.0⟩
  accessibility := ⟨false, true, 600, 3600⟩

namespace CostWeights

/-- A factor that is a number, finite, and not negative. -/
def isFactor (x : Float) : Bool := decide (0.0 ≤ x) && x.isFinite

/-- The first weight that is negative or not a finite number. -/
def negative? (w : CostWeights) : Option Quantity :=
  if w.board < 0 then some .boardWeight
  else if w.transfer < 0 then some .transferWeight
  else if !isFactor w.transferPerKm then some .transferDistanceWeight
  else if !isFactor w.waitReluctance then some .waitReluctance
  else if !w.transitReluctance.all isFactor then some .transitReluctance
  else if decide (w.unpreferred.constant < 0) || !isFactor w.unpreferred.coefficient then
    some .unpreferredCost
  else if w.accessibility.unknownCost < 0 ∨ w.accessibility.inaccessibleCost < 0 then
    some .accessibilityCost
  else none

/-- Accepts weights under which no part of a journey lowers its cost. -/
def check (w : CostWeights) : Except DataError Unit :=
  match w.negative? with
  | some quantity => .error (.negative quantity)
  | none => .ok ()

end CostWeights

end JourneyPlanner
