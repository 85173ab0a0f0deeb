import JourneyPlanner.Demo.Grid
import JourneyPlanner.Itinerary.Text
import JourneyPlanner.Search.Plan
/-!
# Journeys across the grid

The report lists the journeys that leave the first corner of the grid at seven o'clock, for each stop
on its diagonal.
-/
namespace JourneyPlanner.Demo

/-- The request for journeys to the stop number `k` of the diagonal. -/
def requestTo (k : Nat) : Request where
  departure := .hms 7 0 0
  latestArrival := none
  access := [.walk 0 120 240]
  egress := [.walk (stopAt k k) 60 120]
  weights := .standard

/-- The lines about an answer. Stops are numbers. -/
def answerLines (k : Nat) (result : SearchResult) : List String :=
  ("S0-0 -> S" ++ toString k ++ "-" ++ toString k ++ ": " ++ toString result.itineraries.length ++
      " paths, " ++ toString result.stats.rounds ++ " rounds" ++
      (if result.timedOut then " (timed out)" else "")) ::
    result.itineraries.map fun it => "  " ++ it.text toString

/-- The lines about all answers. A request that is refused has none. -/
def report (network : Network) (settings : Settings) : List String :=
  (List.range' 1 (side - 1)).flatMap fun k =>
    match network.plan settings (requestTo k) with
    | .ok result => answerLines k result
    | .error _ => []

/-- The report on the grid. Without the grid there is nothing to report. -/
def gridReport (settings : Settings) : List String :=
  match grid with
  | .ok network => report network settings
  | .error _ => []

end JourneyPlanner.Demo
