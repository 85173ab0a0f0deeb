import JourneyPlanner.Identifier
/-!
# Errors in timetable data

`DataError` is what the parts of a network refuse to be built from. `OutOfRange` is a look-up by a
number that stands for nothing: a stop, a route, a position, an arrival, a round, or a calendar day.
-/
namespace JourneyPlanner

/-- The number of a stop in its network. -/
abbrev Stop := Nat

/-- The place of a stop in the row of stops that a route serves; a stop served twice has two. -/
abbrev Position := Nat

/-- The number of a route in its network. -/
abbrev RouteIndex := Nat

/-- Why a row of legs is no itinerary. -/
inductive LegsDefect where
  | ends
  | streetLegInside
  | notContiguous
  | egressElsewhere
  deriving DecidableEq, Repr

def LegsDefect.message : LegsDefect → String
  | .ends => "must start with access and end with egress"
  | .streetLegInside => "access or egress in the middle"
  | .notContiguous => "legs are not contiguous"
  | .egressElsewhere => "egress does not start at the last stop"

/-- A quantity that must not be negative. -/
inductive Quantity where
  | transferDuration
  | transferCost
  | boardWeight
  | transferWeight
  | transferDistanceWeight
  | waitReluctance
  | transitReluctance
  | unpreferredCost
  | accessibilityCost
  deriving DecidableEq, Repr

def Quantity.name : Quantity → String
  | .transferDuration => "transfer duration"
  | .transferCost => "transfer cost"
  | .boardWeight => "board_cost"
  | .transferWeight => "transfer_cost"
  | .transferDistanceWeight => "transfer_cost_per_km"
  | .waitReluctance => "wait_reluctance"
  | .transitReluctance => "transit_reluctance"
  | .unpreferredCost => "unpreferred_cost"
  | .accessibilityCost => "accessibility cost"

/-- What timetable data can be refused for. -/
inductive DataError where
  | patternTooShort (stops : Nat)
  | timesLengthMismatch (expected actual : Nat)
  | departureBeforeArrival (position : Position)
  | decreasingTimes (position : Position)
  | invalidHeadway (secs : Int)
  | invertedServiceWindow
  | invertedOpeningHours
  | emptyRoute (id : RouteId)
  | stopOutOfRange (stop : Stop) (stops : Nat)
  | invalidLegs (defect : LegsDefect)
  | negative (quantity : Quantity)
  deriving DecidableEq, Repr

/-- The words for a stop that a network with so many stops does not have. -/
def stopOutOfRangeMessage (stop : Stop) (stops : Nat) : String :=
  "stop " ++ toString stop ++ " is out of range (" ++ toString stops ++ " stops)"

def DataError.message : DataError → String
  | .patternTooShort n => "pattern must have at least two stops, got " ++ toString n
  | .timesLengthMismatch expected actual =>
    "expected " ++ toString expected ++ " stop times, got " ++ toString actual
  | .departureBeforeArrival p => "departure before arrival at position " ++ toString p
  | .decreasingTimes p => "times decrease between positions " ++ toString p ++ " and the next"
  | .invalidHeadway secs => "invalid headway: " ++ toString secs ++ "s"
  | .invertedServiceWindow => "frequency window ends before it starts"
  | .invertedOpeningHours => "opening hours close before they open"
  | .emptyRoute id => "route " ++ toString id ++ " has no trips"
  | .stopOutOfRange stop stops => stopOutOfRangeMessage stop stops
  | .invalidLegs defect => "invalid path: " ++ defect.message
  | .negative quantity => "negative " ++ quantity.name

/-- Why a search stops: a number stands for nothing where it is looked up, or a sum of seconds does not
fit into 32 bits with a sign. -/
inductive OutOfRange where
  | stop (i : Nat)
  | route (i : Nat)
  | position (i : Nat)
  | arrival (i : Nat)
  | round (i : Nat)
  | sum
  deriving DecidableEq, Repr

end JourneyPlanner
