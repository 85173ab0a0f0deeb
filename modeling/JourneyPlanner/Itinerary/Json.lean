import JourneyPlanner.Itinerary
import JourneyPlanner.Route.Json
/-!
# Itineraries in JSON

Times are written in seconds, and what is not known as null.
-/
namespace JourneyPlanner

open Json

namespace Leg

/-- A leg along the street. -/
def streetToJson (kind : String) (l : StreetLeg) : Value :=
  .record
    [("kind", .text kind), ("stop", .nat l.stop), ("departure", l.departure.toJson),
      ("arrival", l.arrival.toJson), ("cost", .int l.cost), ("num_rides", .nat l.rides)]

def toJson : Leg → Value
  | .access l => streetToJson "access" l
  | .egress l => streetToJson "egress" l
  | .transfer l =>
    .record
      [("kind", .text "transfer"), ("from_stop", .nat l.source), ("to_stop", .nat l.target),
        ("departure", l.departure.toJson), ("arrival", l.arrival.toJson), ("cost", .int l.cost),
        ("distance_meters", .optional .nat l.metres)]
  | .ride l =>
    .record
      [("kind", .text "transit"), ("route", .nat l.route), ("route_id", .text l.routeId.text),
        ("mode", l.mode.toJson), ("trip", l.run.toJson), ("trip_id", .text l.tripId.text),
        ("board_position", .nat l.boardPosition), ("alight_position", .nat l.alightPosition),
        ("board_stop", .nat l.boardStop), ("alight_stop", .nat l.alightStop),
        ("board_time", l.boardTime.toJson), ("alight_time", l.alightTime.toJson),
        ("reluctance_index", .nat l.reluctance),
        ("accessibility", l.accessibility.toJson)]

end Leg

def Itinerary.members (it : Itinerary) : List (String × Value) :=
  [("legs", .array (it.legs.map Leg.toJson)), ("departure_time", it.departure.toJson),
    ("arrival_time", it.arrival.toJson), ("number_of_transfers", .nat it.transfers),
    ("generalized_cost", .int it.cost)]

end JourneyPlanner
