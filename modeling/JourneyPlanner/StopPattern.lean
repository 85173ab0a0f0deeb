import JourneyPlanner.DataError
/-!
# Patterns of stops

A `StopPattern` is the row of stops that the trips of one route serve. It has at least two positions
and may visit a stop more than once.
-/
namespace JourneyPlanner

/-- The kind of vehicle of a route. -/
inductive Mode where
  | bus
  | rail
  | tram
  | subway
  | ferry
  | coach
  | flex
  deriving DecidableEq, Repr

namespace Mode

/-- The modes, in the order of their ride-time factors. -/
def all : List Mode := [.bus, .rail, .tram, .subway, .ferry, .coach, .flex]

/-- Which of the ride-time factors belongs to the mode. -/
def reluctance (m : Mode) : Nat := all.idxOf m

/-- The mode as it is written in an itinerary. -/
def label : Mode → String
  | .bus => "BUS"
  | .rail => "RAIL"
  | .tram => "TRAM"
  | .subway => "SUBWAY"
  | .ferry => "FERRY"
  | .coach => "COACH"
  | .flex => "FLEX"

instance : ToString Mode := ⟨label⟩

end Mode

/-- The stops that the trips of a route serve, in order. -/
structure StopPattern where
  name : String
  stops : Array Stop
  two_le : 2 ≤ stops.size
  deriving DecidableEq, Repr

namespace StopPattern

def ofStops (name : String) (stops : Array Stop) : Except DataError StopPattern :=
  if h : 2 ≤ stops.size then .ok ⟨name, stops, h⟩ else .error (.patternTooShort stops.size)

/-- The number of positions. -/
def size (pattern : StopPattern) : Nat := pattern.stops.size

def stop? (pattern : StopPattern) (p : Position) : Except OutOfRange Stop :=
  match pattern.stops[p]? with
  | some s => .ok s
  | none => .error (.position p)

/-- The stop at a position, stop 0 outside the pattern. -/
def stop (pattern : StopPattern) (p : Position) : Stop := pattern.stops.getD p 0

def last (pattern : StopPattern) : Position := pattern.size - 1

/-- The positions at which the pattern visits a stop. -/
def positionsOf (pattern : StopPattern) (stop : Stop) : List Position :=
  (List.range pattern.size).filter fun p => pattern.stops[p]? == some stop

end StopPattern

end JourneyPlanner
