import JourneyPlanner.Search.ArrivalStore
/-!
# The earliest arrival per stop and round

`EarliestArrivals` keeps for each stop and round the earliest arrival of any kind and the earliest
one on board. Only an arrival on board may walk on, so it is kept even where a walk is quicker. An
arrival is compared with those of its own round and of all rounds before it, so a later round adds
earlier arrivals only.
-/
namespace JourneyPlanner

/-- An accepted arrival by its number and its time. -/
structure Mark where
  id : Nat
  time : Time
  deriving DecidableEq, Repr

/-- The arrivals kept for one stop, a row for each round. -/
structure StopRows where
  any : List (Option Mark)
  onBoard : List (Option Mark)
  deriving DecidableEq, Repr

namespace StopRows

/-- No arrivals in any of the rounds. -/
def blank (rounds : Nat) : StopRows := ⟨List.replicate rounds none, List.replicate rounds none⟩

/-- The earlier of two arrivals, and the first of two at the same time. -/
def earlier : Option Mark → Option Mark → Option Mark
  | best, none => best
  | none, some m => some m
  | some b, some m => if b.time ≤ m.time then some b else some m

/-- The earliest arrival of the rounds up to the given one; the first round with it wins. -/
def earliest (rows : List (Option Mark)) (round : Nat) : Option Mark :=
  (rows.take (round + 1)).foldl earlier none

/-- Whether a time is before the earliest arrival of the rounds up to the given one. -/
def isEarlier (rows : List (Option Mark)) (round : Nat) (time : Time) : Bool :=
  (earliest rows round).all fun m => decide (time < m.time)

/-- The rows that an arrival of a kind is measured against. -/
def rowsFor (s : StopRows) (onBoard : Bool) : List (Option Mark) := if onBoard then s.onBoard else s.any

/-- Whether an arrival improves the rows of its kind. -/
def improves (s : StopRows) (round : Nat) (a : Arrival) : Bool :=
  isEarlier (s.rowsFor a.onBoard) round a.time

def rounds (s : StopRows) : Nat := s.any.length

/-- Enters an arrival that has been accepted in a round. -/
def enter (s : StopRows) (round : Nat) (a : Arrival) (id : Nat) : StopRows where
  any := if isEarlier s.any round a.time then s.any.set round (some ⟨id, a.time⟩) else s.any
  onBoard := if a.onBoard then s.onBoard.set round (some ⟨id, a.time⟩) else s.onBoard

/-- The arrivals that the round after the given one may board from: the earliest of any kind, then
the earliest on board if it is another one. -/
def boardable (s : StopRows) (round : Nat) : List Nat :=
  let any := (earliest s.any round).map (·.id)
  let onBoard := (earliest s.onBoard round).map (·.id)
  any.toList ++ (if onBoard = any then [] else onBoard.toList)

end StopRows

/-- The earliest arrivals at every stop. -/
structure EarliestArrivals where
  log : ArrivalLog
  stops : Array StopRows
  changes : RoundChanges
  round : Nat
  deriving DecidableEq

namespace EarliestArrivals

/-- No arrivals, with room for round 0 and the given number of rounds after it. -/
def init (stops maxRounds : Nat) : EarliestArrivals where
  log := .empty
  stops := Array.replicate stops (.blank (maxRounds + 1))
  changes := .none
  round := 0

def rows? (s : EarliestArrivals) (stop : Stop) : Except OutOfRange StopRows :=
  match s.stops[stop]? with
  | some rows => .ok rows
  | none => .error (.stop stop)

/-- Starts an iteration. -/
def beginIteration (s : EarliestArrivals) : EarliestArrivals := { s with changes := .none, round := 0 }

/-- Starts a round. -/
def beginRound (s : EarliestArrivals) (round : Nat) : EarliestArrivals :=
  { s with changes := s.changes.beginRound round, round := round }

/-- The arrivals from which the current round may board. Round 0 boards nothing. -/
def boardable (s : EarliestArrivals) (stop : Stop) : Except OutOfRange (List Nat) :=
  match s.round with
  | 0 => .ok []
  | previous + 1 => (s.rows? stop).map fun rows => rows.boardable previous

/-- The arrival from which the current round may walk on: its earliest one on board. -/
def transferable (s : EarliestArrivals) (stop : Stop) : Except OutOfRange (List Nat) := do
  let rows ← s.rows? stop
  if stop ∈ s.changes.onBoard then
    match rows.onBoard[s.round]? with
    | some m => return (m.map (·.id)).toList
    | none => throw (.round s.round)
  else return []

/-- Whether an arrival is earlier than those it is measured against. -/
def improves (s : EarliestArrivals) (a : Arrival) : Except OutOfRange Bool :=
  (s.rows? a.stop).map fun rows => rows.improves s.round a

/-- Keeps an arrival. -/
def accept (s : EarliestArrivals) (a : Arrival) : Except OutOfRange (EarliestArrivals × Nat) := do
  let rows ← s.rows? a.stop
  if s.round < rows.rounds then
    let id := s.log.size
    let next :=
      { s with
        log := s.log.push a
        stops := s.stops.modify a.stop fun rows => rows.enter s.round a id
        changes := s.changes.record a }
    return (next, id)
  else throw (.round s.round)

/-- The earliest arrival at a stop with at most the given rounds. -/
def bestTime (s : EarliestArrivals) (stop : Stop) (round : Nat) : Except OutOfRange (Option Time) :=
  (s.rows? stop).map fun rows => (StopRows.earliest rows.any round).map (·.time)

/-- A passenger on a run that leaves no later makes the other one redundant. -/
def outrides (a b : Rider) (p : Position) : Bool := decide (a.run.departure p ≤ b.run.departure p)

end EarliestArrivals

instance : ArrivalStore EarliestArrivals where
  beginIteration s _ := s.beginIteration
  beginRound := EarliestArrivals.beginRound
  round := EarliestArrivals.round
  changes := EarliestArrivals.changes
  boardable := EarliestArrivals.boardable
  transferable := EarliestArrivals.transferable
  improves := EarliestArrivals.improves
  accept := EarliestArrivals.accept
  reject s _ := s
  log := EarliestArrivals.log
  bestTime := EarliestArrivals.bestTime
  truncations _ := 0
  outrides := EarliestArrivals.outrides

end JourneyPlanner
