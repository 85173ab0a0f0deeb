import JourneyPlanner.Itinerary
/-!
# Selecting and ranking itineraries

`splitDuplicates` keeps one itinerary of each row of legs, `splitDominated` keeps those that none of
the others dominates, and `rank` puts the best ones first.
-/
namespace JourneyPlanner.Itinerary

/-- The order in which results are shown: by arrival, then transfers, then cost, then the later
departure. -/
def rankOrder (a b : Itinerary) : Ordering :=
  ((compare a.arrival b.arrival).then (compare a.transfers b.transfers)).then
    ((compare a.cost b.cost).then (compare b.departure a.departure))

/-- The itineraries in the order in which they are shown; equal ones keep their order. -/
def rank (its : List Itinerary) : List Itinerary := its.mergeSort fun a b => (rankOrder a b).isLE

/-- Itineraries that are kept, and those that are not. -/
structure Split where
  kept : List Itinerary
  removed : List Itinerary
  deriving DecidableEq, Repr

/-- Takes an itinerary in, unless one that is kept dominates it; it removes those it dominates. -/
def Split.addUndominated (dominates : Itinerary → Itinerary → Bool) (s : Split) (it : Itinerary) :
    Split :=
  if s.kept.any fun k => dominates k it then { s with removed := s.removed ++ [it] }
  else
    { kept := s.kept.filter (fun k => !dominates it k) ++ [it]
      removed := s.removed ++ s.kept.filter (dominates it) }

/-- Splits itineraries into those that no other one dominates and the rest. -/
def splitDominated (dominates : Itinerary → Itinerary → Bool) (its : List Itinerary) : Split :=
  its.foldl (Split.addUndominated dominates) ⟨[], []⟩

/-- The order of preference between itineraries with the same legs. -/
def preference (a b : Itinerary) : Ordering :=
  (compare a.cost b.cost).then ((compare a.transfers b.transfers).then (compare a.arrival b.arrival))

/-- Puts an itinerary in the place of the first one with the same legs if it is preferred to that
one, or at the end if there is none. The second result is the itinerary that had to give way. -/
def enterByLegs (it : Itinerary) : List Itinerary → List Itinerary × Option Itinerary
  | [] => ([it], none)
  | k :: ks =>
    if k.legs = it.legs then
      if preference it k = .lt then (it :: ks, some k) else (k :: ks, some it)
    else
      let (ks, dropped) := enterByLegs it ks
      (k :: ks, dropped)

/-- Takes an itinerary in, unless one with the same legs is preferred. -/
def Split.addDistinct (s : Split) (it : Itinerary) : Split :=
  let (kept, dropped) := enterByLegs it s.kept
  ⟨kept, s.removed ++ dropped.toList⟩

/-- Splits itineraries into one for each row of legs and the rest. -/
def splitDuplicates (its : List Itinerary) : Split := its.foldl Split.addDistinct ⟨[], []⟩

end JourneyPlanner.Itinerary
