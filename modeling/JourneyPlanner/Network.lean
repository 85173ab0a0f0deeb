import JourneyPlanner.Route
import JourneyPlanner.Transfer
import JourneyPlanner.ConnectionTable
/-!
# Networks

A `Network` is what a search reads: stops, routes, street transfers and the table of connections. It
is built once and never changes.
-/
namespace JourneyPlanner

/-- The stops, routes, transfers and connections of one timetable. -/
structure Network where
  stopNames : Array String
  routes : Array Route
  /-- For each stop the routes that serve it, ascending. -/
  routesAt : Array (List RouteIndex)
  /-- For each stop the transfers that leave it. -/
  transfers : Array (List Transfer)
  connections : ConnectionTable
  deriving DecidableEq

namespace Network

def stopCount (net : Network) : Nat := net.stopNames.size

def routeCount (net : Network) : Nat := net.routes.size

/-- The route of a number. -/
def route? (net : Network) (i : RouteIndex) : Except OutOfRange Route :=
  match net.routes[i]? with
  | some r => .ok r
  | none => .error (.route i)

def stopName? (net : Network) (stop : Stop) : Option String := net.stopNames[stop]?

def stopNamed? (net : Network) (name : String) : Option Stop :=
  net.stopNames.toList.findIdx? (· == name)

/-- The name of a stop, or its number when the network does not have it. -/
def stopLabel (net : Network) (stop : Stop) : String := (net.stopName? stop).getD (toString stop)

/-- The routes that serve a stop, ascending. -/
def routesThrough (net : Network) (stop : Stop) : List RouteIndex := net.routesAt.getD stop []

def transfersFrom (net : Network) (stop : Stop) : List Transfer := net.transfers.getD stop []

/-- The quicker of two transfers, and the first of two that are equally quick. -/
def quicker (best : Option Transfer) (t : Transfer) : Option Transfer :=
  match best with
  | none => some t
  | some b => if t.duration < b.duration then some t else some b

/-- The quickest transfer between two stops. -/
def transferBetween? (net : Network) (source target : Stop) : Option Transfer :=
  ((net.transfersFrom source).filter fun t => t.target = target).foldl quicker none

end Network

end JourneyPlanner
