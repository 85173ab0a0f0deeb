import JourneyPlanner.Network
import JourneyPlanner.Route.Json
/-!
# Networks in JSON

Of the table of connections only the number of changes is written.
-/
namespace JourneyPlanner

open Json

def ConnectionPriority.names : List (String × ConnectionPriority) :=
  [("allowed", .allowed), ("recommended", .recommended), ("preferred", .preferred)]

/-- A rule for a change. -/
def ConnectionRule.toJson : ConnectionRule → Value
  | .guaranteed => .text "guaranteed"
  | .notAllowed => .text "not_allowed"
  | .minimumTime secs => .record [("min_transfer_time", .int secs)]

/-- The terms of a change. -/
def ConnectionTerms.toJson (t : ConnectionTerms) : Value :=
  .record [("constraint", t.rule.toJson), ("priority", nameIn ConnectionPriority.names t.priority)]

/-- A transfer, without the stop that it leaves. -/
def Transfer.toJson (t : Transfer) : Value :=
  .record
    [("to", .nat t.target), ("duration", .int t.duration), ("cost", .int t.cost),
      ("distance", .optional .nat t.metres)]

def Network.toJson (net : Network) : Value :=
  let stops := List.range net.stopCount
  .record
    [("stops", .arrayOf .text net.stopNames.toList),
      ("routes", .arrayOf Route.toJson net.routes.toList),
      ("routes_through", .arrayOf (fun s => .arrayOf .nat (net.routesThrough s)) stops),
      ("transfers", .arrayOf (fun s => .arrayOf Transfer.toJson (net.transfersFrom s)) stops),
      ("constraints", .nat net.connections.size)]

end JourneyPlanner
