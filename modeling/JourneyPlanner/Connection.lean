import JourneyPlanner.DataError
/-!
# Rules for changing between two trips

A `ConnectionRule` replaces the usual slack for one change of trains: it forbids the change, sets its
least duration, or promises that the second trip waits. A `ConnectionPriority` says how welcome the
change is. `priorityCost` weighs both, and less is better.
-/
namespace JourneyPlanner

/-- How a change between two trips departs from the usual slack. -/
inductive ConnectionRule where
  /-- The second trip waits for the first, however late that is. -/
  | guaranteed
  | notAllowed
  /-- The change takes at least so many seconds from the arrival of the first trip. -/
  | minimumTime (secs : Int)
  deriving DecidableEq, Repr

/-- How welcome a change between two trips is. -/
inductive ConnectionPriority where
  | allowed
  | recommended
  | preferred
  deriving DecidableEq, Repr

/-- What holds for a change between two trips. -/
structure ConnectionTerms where
  rule : ConnectionRule
  priority : ConnectionPriority
  deriving DecidableEq, Repr

namespace ConnectionRule

/-- The class of a rule: forbidding is stricter than a least duration, and that than a promise. -/
def rank : ConnectionRule → Nat
  | .guaranteed => 0
  | .minimumTime _ => 1
  | .notAllowed => 2

/-- The least duration a rule sets, zero where it sets none. -/
def minimum : ConnectionRule → Int
  | .minimumTime secs => secs
  | _ => 0

/-- A rule of a higher class, or of the same class with a longer least duration. -/
def StricterThan (a b : ConnectionRule) : Prop :=
  b.rank < a.rank ∨ a.rank = b.rank ∧ b.minimum < a.minimum

instance (a b : ConnectionRule) : Decidable (a.StricterThan b) :=
  inferInstanceAs (Decidable (_ ∨ _ ∧ _))

/-- The stricter of two rules. -/
def strictest (a b : ConnectionRule) : ConnectionRule := if b.StricterThan a then b else a

end ConnectionRule

def forbiddenPriorityCost : Int := 1000

/-- How much a promise takes off the priority cost. -/
def guaranteeBonus : Int := 10

/-- The priority cost of a change without a rule. -/
def ConnectionPriority.cost : ConnectionPriority → Int
  | .allowed => 33
  | .recommended => 32
  | .preferred => 31

def priorityCost (rule : Option ConnectionRule) (priority : ConnectionPriority) : Int :=
  match rule with
  | some .notAllowed => forbiddenPriorityCost
  | some .guaranteed => priority.cost - guaranteeBonus
  | _ => priority.cost

/-- The priority cost of a change under the given terms, if there are any. -/
def termsCost : Option ConnectionTerms → Int
  | none => priorityCost none .allowed
  | some terms => priorityCost (some terms.rule) terms.priority

/-- Published terms for changing between two trips, each at one of its positions. -/
structure ConnectionNotice where
  alightTrip : TripId
  alightPosition : Position
  boardTrip : TripId
  boardPosition : Position
  terms : ConnectionTerms
  deriving DecidableEq, Repr

end JourneyPlanner
