import JourneyPlanner.StreetPath
import JourneyPlanner.Time.Text
import JourneyPlanner.Search.Settings
/-!
# Requests

A `Request` asks for journeys from the origin to the destination, which are given by the street paths
between them and the network. `Request.check` says why a network cannot answer one.
-/
namespace JourneyPlanner

/-- A question for journeys. -/
structure Request where
  /-- When the traveller can leave the origin. -/
  departure : Time
  /-- When the traveller has to be at a stop or at the destination at the latest. -/
  latestArrival : Option Time
  access : List StreetPath
  egress : List StreetPath
  weights : CostWeights

/-- Why a request gets no answer. -/
inductive SearchError where
  | noAccess
  | noEgress
  | invertedTimeWindow (departure latestArrival : Time)
  | stopOutOfRange (stop : Stop) (stops : Nat)
  | badSettings (error : SettingsError)
  | badWeights (error : DataError)
  /-- The search stops: the network refers to something it does not have, which a finished draft never
  does, or a sum is out of range. -/
  | brokenNetwork (missing : OutOfRange)
  deriving DecidableEq, Repr

def SearchError.message : SearchError → String
  | .noAccess => "no access paths"
  | .noEgress => "no egress paths"
  | .invertedTimeWindow departure latest =>
    "latest arrival " ++ toString latest ++ " is before earliest departure " ++ toString departure
  | .stopOutOfRange stop stops => stopOutOfRangeMessage stop stops
  | .badSettings e => "invalid search request: " ++ e.message
  | .badWeights e => "invalid search request: " ++ e.message
  | .brokenNetwork _ => "the network is broken"

namespace Request

/-- Whether a time is after the latest arrival. -/
def isTooLate (r : Request) (t : Time) : Bool := r.latestArrival.any fun latest => latest < t

/-- The first reason not to search a network with so many stops. -/
def defect? (r : Request) (stops : Nat) : Option SearchError :=
  if r.access.isEmpty then some .noAccess
  else if r.egress.isEmpty then some .noEgress
  else
    match r.latestArrival.filter (fun latest => decide (latest < r.departure)) with
    | some latest => some (.invertedTimeWindow r.departure latest)
    | none =>
      match (r.access ++ r.egress).find? fun path => stops ≤ path.stop with
      | some path => some (.stopOutOfRange path.stop stops)
      | none => (r.weights.negative?).map fun quantity => .badWeights (.negative quantity)

/-- Accepts a request that a network with so many stops can answer. -/
def check (r : Request) (stops : Nat) : Except SearchError Unit :=
  match r.defect? stops with
  | some e => .error e
  | none => .ok ()

end Request

end JourneyPlanner
