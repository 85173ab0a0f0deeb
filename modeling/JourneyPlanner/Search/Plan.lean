import JourneyPlanner.Itinerary.Ranking
import JourneyPlanner.Search.ArrivalFrontiers
import JourneyPlanner.Search.EarliestArrivals
import JourneyPlanner.Search.Observed
import JourneyPlanner.Search.Reconnect
import JourneyPlanner.Search.Retrace
/-!
# Planning journeys

`Network.plan` answers a request: it searches, tells the arrivals at the destination as itineraries,
selects among them, moves their changes if the settings ask for it, and ranks them.
`Network.planObserved` also reports every decision on the way.
-/
namespace JourneyPlanner

/-- The answer to a request. -/
structure SearchResult where
  /-- The itineraries, the best one first. -/
  itineraries : List Itinerary
  stats : SearchStats
  /-- Whether the time was over before the search was. -/
  timedOut : Bool
  deriving DecidableEq, Repr

/-- The answer of a search that has found nothing. -/
def SearchResult.empty : SearchResult := ⟨[], .zero, false⟩

/-- Why an itinerary is not part of the answer. -/
inductive Rejection where
  | duplicate
  | dominated
  deriving DecidableEq, Repr

def Rejection.word : Rejection → String
  | .duplicate => "duplicate"
  | .dominated => "dominated"

/-- A decision of a search. -/
inductive SearchEvent where
  | arrival (event : ArrivalEvent)
  | rejected (itinerary : Itinerary) (reason : Rejection)
  | accepted (itinerary : Itinerary)
  deriving DecidableEq, Repr

/-- Itineraries of an answer, and the decisions that led to them. -/
structure Selection where
  itineraries : List Itinerary
  events : List SearchEvent
  deriving DecidableEq, Repr

namespace Task

/-- How the itineraries of the answer are compared. Over a range of departures a late departure
counts too. -/
def dominates (task : Task) : Itinerary → Itinerary → Bool :=
  if 0 < task.settings.window then Itinerary.dominatesInRange else Itinerary.dominates

/-- The events of itineraries that are not part of the answer. -/
def rejections (reason : Rejection) (its : List Itinerary) : List SearchEvent :=
  its.map (.rejected · reason)

/-- Moves the changes of itineraries, and drops those that another one dominates afterwards. -/
def reconnectAll (task : Task) (its : List Itinerary) : Except OutOfRange Selection :=
  if task.settings.changes = .asFound then .ok ⟨its, []⟩
  else do
    let split := Itinerary.splitDominated task.dominates (← its.mapM task.reconnect)
    return ⟨split.kept, rejections .dominated split.removed⟩

/-- Selects the itineraries of the answer and ranks them. -/
def select (task : Task) (its : List Itinerary) : Except OutOfRange Selection := do
  let distinct := Itinerary.splitDuplicates its
  let undominated := Itinerary.splitDominated task.dominates distinct.kept
  let moved ← task.reconnectAll undominated.kept
  let ranked := Itinerary.rank moved.itineraries
  return {
    itineraries := ranked
    events := rejections .duplicate distinct.removed ++ rejections .dominated undominated.removed ++
      moved.events ++ ranked.map .accepted }

/-- The answer from what a search has left behind, and the decisions made on the way from there. -/
def answer {σ : Type} [ArrivalStore σ] (task : Task) (outcome : Outcome σ) :
    Except OutOfRange (SearchResult × List SearchEvent) := do
  let its ← task.itineraries (ArrivalStore.log outcome.store) outcome.goals.items
  let selection ← task.select its
  return (⟨selection.itineraries, outcome.stats, outcome.timedOut⟩, selection.events)

/-- The answer of a search that starts with an empty store. -/
def search {σ : Type} [ArrivalStore σ] (task : Task) (store : σ) :
    Except OutOfRange SearchResult := do
  let (result, _) ← task.answer (← task.run store)
  return result

/-- The answer of a search that starts with an empty store, and all its decisions. -/
def searchObserved {σ : Type} [ArrivalStore σ] (task : Task) (store : σ) :
    Except OutOfRange (SearchResult × List SearchEvent) := do
  let outcome ← task.run (Observed.watch store)
  let (result, events) ← task.answer { outcome with store := outcome.store.inner }
  return (result, outcome.store.events.toList.map .arrival ++ events)

end Task

namespace Network

/-- The task of answering a request, if the settings and the request can be worked with. -/
def task? (net : Network) (settings : Settings) (request : Request) (clock : Clock) :
    Except SearchError Task := do
  settings.check.mapError .badSettings
  request.check net.stopCount
  return .ofRequest net settings request clock

/-- The journeys that a request asks for. -/
def plan (net : Network) (settings : Settings) (request : Request) (clock : Clock := .still) :
    Except SearchError SearchResult := do
  let task ← net.task? settings request clock
  let result :=
    match settings.profile with
    | .standard => task.search (EarliestArrivals.init net.stopCount settings.maxRounds)
    | .multiCriteria => task.search (ArrivalFrontiers.init net.stopCount settings.frontierSize)
  result.mapError .brokenNetwork

/-- The journeys that a request asks for, and every decision of the search. -/
def planObserved (net : Network) (settings : Settings) (request : Request) (clock : Clock := .still) :
    Except SearchError (SearchResult × List SearchEvent) := do
  let task ← net.task? settings request clock
  let result :=
    match settings.profile with
    | .standard => task.searchObserved (EarliestArrivals.init net.stopCount settings.maxRounds)
    | .multiCriteria =>
      task.searchObserved (ArrivalFrontiers.init net.stopCount settings.frontierSize)
  result.mapError .brokenNetwork

end Network

end JourneyPlanner
