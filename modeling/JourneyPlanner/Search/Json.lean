import JourneyPlanner.Route.Json
import JourneyPlanner.Search.Observed
/-!
# Arrivals in JSON

An arrival is written with the number of the arrival that it continues, so that a journey can be
followed through the record of a search.
-/
namespace JourneyPlanner

open Json

/-- How a stop was reached. -/
def Via.toJson : Via → Value
  | .access path onBoard =>
    .record [("access", .record [("access", .nat path), ("on_board", .bool onBoard)])]
  | .ride route run boardPosition alightPosition boardTime =>
    .record
      [("transit", .record
        [("route", .nat route), ("trip", run.toJson), ("board_pos", .nat boardPosition),
          ("alight_pos", .nat alightPosition), ("board_time", boardTime.toJson)])]
  | .transfer source number =>
    .record [("transfer", .record [("from", .nat source), ("transfer", .nat number)])]

def Arrival.toJson (a : Arrival) : Value :=
  .record
    [("parent", .optional .nat a.parent), ("stop", .nat a.stop), ("time", a.time.toJson),
      ("rides", .nat a.rides), ("cost", .int a.cost), ("round", .nat a.round),
      ("kind", a.via.toJson)]

/-- The decision about an arrival, with its round and what is shown of the arrival. -/
def ArrivalEvent.toJson (write : Arrival → List Value) : ArrivalEvent → Value
  | .accepted round a => .array (.text "accepted" :: .nat round :: write a)
  | .rejected round a => .array (.text "rejected" :: .nat round :: write a)

end JourneyPlanner
