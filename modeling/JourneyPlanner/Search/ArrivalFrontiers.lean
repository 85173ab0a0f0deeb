import JourneyPlanner.Frontier
import JourneyPlanner.Search.ArrivalStore
/-!
# A frontier of arrivals per stop

`ArrivalFrontiers` keeps for each stop the arrivals that no other one beats in time, rides, cost and
being on board together. A stop keeps a limited number of them; beyond it the most expensive one is
dropped.
-/
namespace JourneyPlanner

/-- The iteration and the round in which an arrival was accepted, in one number. Iterations count
modulo `2^24`, rounds are below 256. -/
def roundStamp (iteration round : Nat) : Nat := iteration % 16777216 * 256 + round

/-- An accepted arrival by its number and its criteria. -/
structure FrontierEntry where
  id : Nat
  stamp : Nat
  time : Time
  rides : Nat
  cost : Int
  onBoard : Bool
  deriving DecidableEq, Repr

def FrontierEntry.ofArrival (a : Arrival) (id stamp : Nat) : FrontierEntry :=
  ⟨id, stamp, a.time, a.rides, a.cost, a.onBoard⟩

/-- Early, few rides, cheap, and on board are better. -/
instance : Criteria FrontierEntry where
  orderings a b :=
    [compare a.time b.time, compare a.rides b.rides, compare a.cost b.cost,
      compare b.onBoard.toNat a.onBoard.toNat]

/-- The order in which entries are dropped, the last one first: by cost, then time, then rides, then
number. -/
def FrontierEntry.dropOrder (a b : FrontierEntry) : Ordering :=
  ((compare a.cost b.cost).then (compare a.time b.time)).then
    ((compare a.rides b.rides).then (compare a.id b.id))

/-- The frontiers of every stop. -/
structure ArrivalFrontiers where
  log : ArrivalLog
  frontiers : Array (Frontier FrontierEntry)
  changes : RoundChanges
  iteration : Nat
  round : Nat
  capacity : Nat
  truncations : Nat
  deriving DecidableEq

namespace ArrivalFrontiers

/-- No arrivals, with room for the given number at each stop, and for one at least. -/
def init (stops capacity : Nat) : ArrivalFrontiers where
  log := .empty
  frontiers := Array.replicate stops .empty
  changes := .none
  iteration := 0
  round := 0
  capacity := max 1 capacity
  truncations := 0

/-- The frontier of a stop. -/
def frontier? (s : ArrivalFrontiers) (stop : Stop) : Except OutOfRange (Frontier FrontierEntry) :=
  match s.frontiers[stop]? with
  | some f => .ok f
  | none => .error (.stop stop)

/-- Starts an iteration. -/
def beginIteration (s : ArrivalFrontiers) (iteration : Nat) : ArrivalFrontiers :=
  { s with changes := .none, iteration := iteration, round := 0 }

/-- Starts a round. -/
def beginRound (s : ArrivalFrontiers) (round : Nat) : ArrivalFrontiers :=
  { s with changes := s.changes.beginRound round, round := round }

/-- The entry that an arrival would get under the given number. -/
def entry (s : ArrivalFrontiers) (a : Arrival) (id : Nat) : FrontierEntry :=
  .ofArrival a id (roundStamp s.iteration s.round)

/-- The arrivals of the last round of this iteration. Round 0 boards nothing. -/
def boardable (s : ArrivalFrontiers) (stop : Stop) : Except OutOfRange (List Nat) :=
  match s.round with
  | 0 => .ok []
  | previous + 1 =>
    (s.frontier? stop).map fun f =>
      (f.items.filter fun e => e.stamp == roundStamp s.iteration previous).map (·.id)

/-- The arrivals on board of the current round of this iteration. -/
def transferable (s : ArrivalFrontiers) (stop : Stop) : Except OutOfRange (List Nat) :=
  (s.frontier? stop).map fun f =>
    (f.items.filter fun e => e.stamp == roundStamp s.iteration s.round && e.onBoard).map (·.id)

/-- Whether no arrival at the stop dominates or equals this one. -/
def improves (s : ArrivalFrontiers) (a : Arrival) : Except OutOfRange Bool :=
  (s.frontier? a.stop).map fun f => f.admits (s.entry a s.log.size)

/-- The frontier with an entry more, and without the last one in the order of dropping if there are
too many. -/
def enter (capacity : Nat) (f : Frontier FrontierEntry) (e : FrontierEntry) :
    Frontier FrontierEntry :=
  let f := f.insert e
  if capacity < f.size then f.dropGreatest fun a b => (a.dropOrder b).isLE else f

/-- Keeps an arrival. -/
def accept (s : ArrivalFrontiers) (a : Arrival) : Except OutOfRange (ArrivalFrontiers × Nat) := do
  let f ← s.frontier? a.stop
  let id := s.log.size
  let e := s.entry a id
  let next :=
    { s with
      log := s.log.push a
      frontiers := s.frontiers.modify a.stop fun f => enter s.capacity f e
      changes := s.changes.record a
      truncations := if s.capacity < (f.insert e).size then s.truncations + 1 else s.truncations }
  return (next, id)

/-- The earliest arrival of the frontier among those of the given round or one before it, in any
iteration. -/
def bestTime (s : ArrivalFrontiers) (stop : Stop) (round : Nat) : Except OutOfRange (Option Time) :=
  (s.frontier? stop).map fun f =>
    ((f.items.filter fun e => decide (e.stamp % 256 ≤ round)).map (·.time)).min?

/-- The number of arrivals kept for a stop. -/
def frontierSize (s : ArrivalFrontiers) (stop : Stop) : Except OutOfRange Nat :=
  (s.frontier? stop).map fun f => f.size

/-- A passenger who leaves no later, with no more rides and no more relative cost, makes the other one
redundant. Relative costs compare only where riding costs the same. -/
def outrides (a b : Rider) (p : Position) : Bool :=
  decide (a.run.schedule.reluctance = b.run.schedule.reluctance) &&
    decide (a.run.departure p ≤ b.run.departure p) && decide (a.rides ≤ b.rides) &&
    decide (a.relativeCost ≤ b.relativeCost)

end ArrivalFrontiers

instance : ArrivalStore ArrivalFrontiers where
  beginIteration := ArrivalFrontiers.beginIteration
  beginRound := ArrivalFrontiers.beginRound
  round := ArrivalFrontiers.round
  changes := ArrivalFrontiers.changes
  boardable := ArrivalFrontiers.boardable
  transferable := ArrivalFrontiers.transferable
  improves := ArrivalFrontiers.improves
  accept := ArrivalFrontiers.accept
  reject s _ := s
  log := ArrivalFrontiers.log
  bestTime := ArrivalFrontiers.bestTime
  truncations := ArrivalFrontiers.truncations
  outrides := ArrivalFrontiers.outrides

end JourneyPlanner
