import JourneyPlanner.Connection
/-!
# The table of connections

A `ConnectionTable` keeps the terms of changes by the calls that they join. A change that is entered
twice keeps the stricter rule, and of two equal rules the better priority, whichever came first; its
place in the table is that of its first entry.
-/
namespace JourneyPlanner

/-- A scheduled trip at one position. The trip is its number in its route's timetable. -/
structure TripCall where
  route : RouteIndex
  trip : Nat
  position : Position
  deriving DecidableEq, Repr

/-- The terms of one change, with the call it leaves and the call it boards. -/
structure ConnectionEntry where
  alight : TripCall
  board : TripCall
  terms : ConnectionTerms
  deriving DecidableEq, Repr

/-- The terms that remain of the terms in the table and terms entered later for the same change. -/
def ConnectionTerms.merge (old new : ConnectionTerms) : ConnectionTerms :=
  let kept := old.rule.strictest new.rule
  if kept ≠ old.rule then new
  else if kept = new.rule ∧ termsCost (some new) < termsCost (some old) then new
  else old

/-- The terms of changes, in the order in which each change was first entered. -/
structure ConnectionTable where
  entries : List ConnectionEntry
  deriving DecidableEq, Repr

namespace ConnectionTable

/-- The table without entries. -/
def empty : ConnectionTable := ⟨[]⟩

/-- Enters terms into a list of entries. -/
def enter (alight board : TripCall) (terms : ConnectionTerms) :
    List ConnectionEntry → List ConnectionEntry
  | [] => [⟨alight, board, terms⟩]
  | e :: es =>
    if e.alight = alight ∧ e.board = board then { e with terms := e.terms.merge terms } :: es
    else e :: enter alight board terms es

/-- Enters the terms of a change. -/
def insert (table : ConnectionTable) (alight board : TripCall) (terms : ConnectionTerms) :
    ConnectionTable :=
  ⟨enter alight board terms table.entries⟩

/-- The terms of exactly this change. -/
def lookup? (table : ConnectionTable) (alight board : TripCall) : Option ConnectionTerms :=
  (table.entries.find? fun e => e.alight = alight ∧ e.board = board).map (·.terms)

/-- The trips of a route that have terms for boarding at `position` after leaving `alight`. -/
def boarding (table : ConnectionTable) (alight : TripCall) (route : RouteIndex)
    (position : Position) : List (Nat × ConnectionTerms) :=
  (table.entries.filter fun e =>
    e.alight = alight ∧ e.board.route = route ∧ e.board.position = position).map
      fun e => (e.board.trip, e.terms)

/-- The number of changes with terms. -/
def size (table : ConnectionTable) : Nat := table.entries.length

end ConnectionTable

end JourneyPlanner
