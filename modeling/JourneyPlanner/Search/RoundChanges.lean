import JourneyPlanner.Search.Arrival
/-!
# What changed in a round

`RoundChanges` lists the stops with an arrival accepted in the last round and in the current one, and
those with an arrival on board in the current one, each once and in the order of its first arrival.
-/
namespace JourneyPlanner

/-- The stops at which arrivals were accepted. -/
structure RoundChanges where
  previous : List Stop
  current : List Stop
  onBoard : List Stop
  deriving DecidableEq, Repr

namespace RoundChanges

/-- No stop has changed. -/
def none : RoundChanges := ⟨[], [], []⟩

/-- Adds a stop to the end of a list, unless it is there already. -/
def enter (stop : Stop) (stops : List Stop) : List Stop :=
  if stop ∈ stops then stops else stops ++ [stop]

/-- The current round becomes the last one. -/
def next (c : RoundChanges) : RoundChanges := ⟨c.current, [], []⟩

/-- Notes an accepted arrival. -/
def record (c : RoundChanges) (a : Arrival) : RoundChanges :=
  { c with
    current := enter a.stop c.current
    onBoard := if a.onBoard then enter a.stop c.onBoard else c.onBoard }

/-- Starts a round. Round 0 of an iteration has no round before it, so nothing moves. -/
def beginRound (c : RoundChanges) (round : Nat) : RoundChanges := if 0 < round then c.next else c

end RoundChanges

end JourneyPlanner
