import JourneyPlanner.Network.Draft
/-!
# A grid of lines

Eight rows and eight columns of stops. Each row and each column has a line in either direction, every
ten minutes from six to nine o'clock, and a walk leads from each stop to its diagonal neighbour.
-/
namespace JourneyPlanner.Demo

/-- The stops on a side of the grid. -/
def side : Nat := 8

/-- The minutes between neighbouring stops of a line. -/
def hopMinutes : Int := 2

/-- The departures of a line. -/
def departures : Nat := 18

/-- What keeps the grid from being built. -/
inductive GridError where
  | data (error : DataError)
  | id (error : IdError)
  deriving DecidableEq, Repr

def stopAt (row column : Nat) : Stop := row * side + column

def stopNames : List String :=
  (List.range (side * side)).map fun i => "S" ++ toString (i / side) ++ "-" ++ toString (i % side)

/-- The lines along row `i` and column `i`, with their stops. -/
def linesOf (i : Nat) : List (String × List Stop) :=
  let row := (List.range side).map fun column => stopAt i column
  let column := (List.range side).map fun row => stopAt row i
  let n := toString i
  [("H" ++ n, row), ("H" ++ n ++ "r", row.reverse), ("V" ++ n, column),
    ("V" ++ n ++ "r", column.reverse)]

/-- The lines of the grid. -/
def lines : List (String × List Stop) := (List.range side).flatMap linesOf

/-- The trip of a line with the given number. -/
def trip (line : String) (stops : List Stop) (k : Nat) : Except GridError Schedule := do
  let first := Time.hms 6 (10 * k) 0
  let times := (List.range stops.length).map fun (i : Nat) => first + (i : Int) * hopMinutes * 60
  let id ← (TripId.ofString (line ++ "-" ++ toString k)).mapError .id
  (Schedule.uniform id times.toArray).mapError .data

def addLine (draft : NetworkDraft) (line : String × List Stop) : Except GridError NetworkDraft := do
  let (name, stops) := line
  let trips ← (List.range departures).mapM (trip name stops)
  let id ← (RouteId.ofString name).mapError .id
  let pattern ← (StopPattern.ofStops name stops.toArray).mapError .data
  (draft.addRoute id .bus pattern trips []).mapError .data

/-- The stops from which a walk leads to the diagonal neighbour, with that neighbour. -/
def diagonals : List (Stop × Stop) :=
  (List.range (side - 1)).flatMap fun row =>
    (List.range (side - 1)).map fun column => (stopAt row column, stopAt (row + 1) (column + 1))

def addWalk (draft : NetworkDraft) (walk : Stop × Stop) : Except GridError NetworkDraft := do
  let transfer ← (Transfer.to walk.2 240 480).mapError .data
  (draft.addTransfer walk.1 (transfer.withMetres 300)).mapError .data

def grid : Except GridError Network := do
  let draft := stopNames.foldl NetworkDraft.addStop .empty
  let draft ← lines.foldlM addLine draft
  let draft ← diagonals.foldlM addWalk draft
  return draft.finish

end JourneyPlanner.Demo
