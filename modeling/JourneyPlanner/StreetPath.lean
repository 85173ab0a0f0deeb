import JourneyPlanner.Time
import JourneyPlanner.DataError
/-!
# Street paths to and from the network

A `StreetPath` leads from the origin to a stop, or from a stop to the destination. A path with rides
uses a flexible service, which counts as rides of the journey. Opening hours limit when a path may
start.
-/
namespace JourneyPlanner

/-- The times at which a street path may start, both ends included. -/
@[ext]
structure OpeningHours where
  opens : Time
  closes : Time
  opens_le : opens ≤ closes
  deriving Repr

instance : DecidableEq OpeningHours := fun _ _ =>
  decidable_of_decidable_of_iff OpeningHours.ext_iff.symm

/-- Opening hours from their ends. -/
def OpeningHours.between (opens closes : Time) : Except DataError OpeningHours :=
  if h : opens ≤ closes then .ok ⟨opens, closes, h⟩ else .error .invertedOpeningHours

/-- A way between the origin or the destination and a stop. -/
structure StreetPath where
  stop : Stop
  duration : Int
  cost : Int
  rides : Nat
  hours : Option OpeningHours
  deriving DecidableEq, Repr

namespace StreetPath

/-- A walk, which may start at any time. -/
def walk (stop : Stop) (duration cost : Int) : StreetPath := ⟨stop, duration, cost, 0, none⟩

/-- A path with rides, which may start at any time. -/
def flex (stop : Stop) (duration cost : Int) (rides : Nat) : StreetPath :=
  ⟨stop, duration, cost, rides, none⟩

/-- Whether the path ends on board a vehicle. -/
def onBoard (path : StreetPath) : Bool := decide (0 < path.rides)

/-- The earliest start at `requested` or later. -/
def earliestStart? (path : StreetPath) (requested : Time) : Option Time :=
  match path.hours with
  | none => some requested
  | some hours =>
    if requested < hours.opens then some hours.opens
    else if hours.closes < requested then none
    else some requested

/-- The latest end at `requested` or earlier. -/
def latestEnd? (path : StreetPath) (requested : Time) : Option Time :=
  match path.hours with
  | none => some requested
  | some hours =>
    let start := requested - path.duration
    if hours.closes < start then some (hours.closes + path.duration)
    else if start < hours.opens then none
    else some requested

end StreetPath

end JourneyPlanner
