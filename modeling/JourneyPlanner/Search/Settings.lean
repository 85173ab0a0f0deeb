import JourneyPlanner.Time
import JourneyPlanner.Cost.Weights
/-!
# Settings of a search

`Settings.check` refuses the settings that a search cannot work with and says which one is at fault.
-/
namespace JourneyPlanner

/-- What a search keeps for each stop. -/
inductive Profile where
  /-- The earliest arrival of each round. -/
  | standard
  /-- The arrivals that are best in time, rides and cost together. -/
  | multiCriteria
  deriving DecidableEq, Repr

/-- Where the changes of a found itinerary are moved to. -/
inductive ChangePolicy where
  | asFound
  /-- To where the waits between rides are longest. -/
  | waitTime
  /-- To the changes of the best priority. -/
  | transferPriority
  deriving DecidableEq, Repr

/-- How a search goes about its work. Times are in seconds. -/
structure Settings where
  maxTransfers : Nat
  /-- How long after the earliest departure the last one may be. -/
  window : Int
  /-- The time between the departures that are tried. -/
  step : Int
  /-- The least time between an arrival and a boarding. -/
  boardSlack : Int
  /-- What is added to it after a ride. -/
  transferSlack : Int
  /-- The number of arrivals kept for a stop. -/
  frontierSize : Nat
  /-- The time the search may take, in milliseconds. -/
  timeout : Option Nat
  profile : Profile
  changes : ChangePolicy
  /-- How much a second of waiting is worth when changes are moved. -/
  inverseWaitReluctance : Float

/-- The usual settings. -/
def Settings.standard : Settings where
  maxTransfers := 12
  window := 0
  step := 60
  boardSlack := 0
  transferSlack := 60
  frontierSize := 200
  timeout := none
  profile := .multiCriteria
  changes := .asFound
  inverseWaitReluctance := 1.0

/-- A setting that a search cannot work with. -/
inductive SettingsError where
  | maxTransfers
  | window
  | step
  | slack
  | frontierSize
  | inverseWaitReluctance
  deriving DecidableEq, Repr

def SettingsError.message : SettingsError → String
  | .maxTransfers => "invalid max_transfers: must be at most 250"
  | .window => "invalid search_window_secs: must not be negative"
  | .step => "invalid iteration_step_secs: must be positive"
  | .slack => "invalid slack: must not be negative"
  | .frontierSize => "invalid max_frontier_size: must be positive"
  | .inverseWaitReluctance => "invalid inverse_wait_reluctance: must be a non-negative number"

namespace Settings

/-- The most transfers that can be asked for. -/
def transferLimit : Nat := 250

/-- The first setting that a search cannot work with. -/
def defect? (s : Settings) : Option SettingsError :=
  if transferLimit < s.maxTransfers then some .maxTransfers
  else if s.window < 0 then some .window
  else if s.step ≤ 0 then some .step
  else if s.boardSlack < 0 ∨ s.transferSlack < 0 then some .slack
  else if s.frontierSize = 0 then some .frontierSize
  else if !CostWeights.isFactor s.inverseWaitReluctance then some .inverseWaitReluctance
  else none

/-- Accepts settings that a search can work with. -/
def check (s : Settings) : Except SettingsError Unit :=
  match s.defect? with
  | some e => .error e
  | none => .ok ()

/-- The number of rounds: each adds one ride. -/
def maxRounds (s : Settings) : Nat := s.maxTransfers + 1

/-- Whether the time of the search is over once so many milliseconds have gone by. -/
def expired (s : Settings) (elapsed : Nat) : Bool := s.timeout.any fun limit => decide (limit ≤ elapsed)

/-- The least time between an arrival with so many rides and a boarding. -/
def slackAfter (s : Settings) (rides : Nat) : Int := s.boardSlack + if 0 < rides then s.transferSlack else 0

/-- The earliest departure of a trip that may be boarded after an arrival at `time` with so many
rides before. -/
def boardingFloor (s : Settings) (time : Time) (rides : Nat) : Time := time + s.slackAfter rides

end Settings

end JourneyPlanner
