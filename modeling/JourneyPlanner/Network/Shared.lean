import JourneyPlanner.Network
/-!
# A network that is replaced while searches run

A `SharedNetwork` holds the network that new searches use. A search keeps the edition that it started
with; publishing another network does not touch it. Editions are numbered, so that two of them can be
told apart even when they hold equal networks.
-/
namespace JourneyPlanner

/-- A published network and its number. -/
structure Edition where
  number : Nat
  network : Network

/-- The edition that new searches use. -/
structure SharedNetwork where
  current : Edition

namespace SharedNetwork

/-- Publishes the first edition. -/
def publish (network : Network) : SharedNetwork := ⟨⟨0, network⟩⟩

/-- Publishes the next edition. -/
def replace (shared : SharedNetwork) (network : Network) : SharedNetwork :=
  ⟨⟨shared.current.number + 1, network⟩⟩

end SharedNetwork

end JourneyPlanner
