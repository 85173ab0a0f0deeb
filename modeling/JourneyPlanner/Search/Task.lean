import JourneyPlanner.Cost.Pricing
import JourneyPlanner.Search.Request
/-!
# One search

A `Task` is all that a search reads: the network, the settings, the request, the request's weights
applied to the network, and a clock.
-/
namespace JourneyPlanner

/-- What a clock says to a search: the milliseconds that have gone by since the search was set up,
when so many rounds have been run. -/
def Clock : Type := Nat → Nat

/-- The clock of a search that takes no time. -/
def Clock.still : Clock := fun _ => 0

/-- What a search reads. -/
structure Task where
  network : Network
  settings : Settings
  request : Request
  pricing : Pricing
  clock : Clock

/-- The task of answering a request. -/
def Task.ofRequest (network : Network) (settings : Settings) (request : Request) (clock : Clock := .still) :
    Task where
  network := network
  settings := settings
  request := request
  pricing := .ofWeights request.weights network
  clock := clock

/-- Whether the time of the search is over when so many rounds have been run. -/
def Task.timeIsOver (task : Task) (rounds : Nat) : Bool := task.settings.expired (task.clock rounds)

end JourneyPlanner
