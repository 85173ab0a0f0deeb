import JourneyPlanner.Itinerary
import JourneyPlanner.Time.Text
/-!
# Itineraries on one line

The legs and the stops between them stand in the order of travel; departure, arrival, duration,
transfers and cost follow in brackets.
-/
namespace JourneyPlanner

/-- A leg along the street: a walk, or a flexible service with its number of rides. -/
def streetText (secs : Int) (rides : Nat) : String :=
  if 0 < rides then "Flex " ++ Time.durationText secs ++ " " ++ toString rides ++ "x"
  else "Walk " ++ Time.durationText secs

def Leg.text : Leg → String
  | .access l => streetText (l.arrival - l.departure) l.rides
  | .ride l =>
    " ".intercalate [toString l.mode, toString l.routeId, toString l.boardTime, toString l.alightTime]
  | .transfer l => streetText (l.arrival - l.departure) 0
  | .egress l => streetText (l.arrival - l.departure) l.rides

/-- An itinerary, with its stops named by `stopLabel`. -/
def Itinerary.text (it : Itinerary) (stopLabel : Stop → String) : String :=
  let parts := it.legs.flatMap fun leg => leg.text :: (leg.endStop?.map stopLabel).toList
  " ~ ".intercalate parts ++ " [" ++ toString it.departure ++ " " ++ toString it.arrival ++ " " ++
    Time.durationText it.duration ++ " " ++ toString it.transfers ++ "tx $" ++ toString it.cost ++ "]"

end JourneyPlanner
