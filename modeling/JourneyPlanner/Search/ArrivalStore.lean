import JourneyPlanner.Search.RoundChanges
/-!
# Stores of arrivals

An `ArrivalStore` decides which arrivals a search keeps and hands them out again: for boarding in the
next round, and for transfers in the same round. The search is written against this interface, so
that it is the same for every way of deciding.
-/
namespace JourneyPlanner

/-- What a search needs of the arrivals it keeps. -/
class ArrivalStore (σ : Type) where
  /-- Starts the iteration of the given number. Earlier arrivals still count. -/
  beginIteration : σ → Nat → σ
  /-- Starts a round. -/
  beginRound : σ → Nat → σ
  /-- The current round. -/
  round : σ → Nat
  /-- Where arrivals were accepted in the last round and the current one. -/
  changes : σ → RoundChanges
  /-- The numbers of the arrivals from which the current round may board at a stop. -/
  boardable : σ → Stop → Except OutOfRange (List Nat)
  /-- The numbers of the arrivals from which the current round may walk on from a stop. -/
  transferable : σ → Stop → Except OutOfRange (List Nat)
  /-- Whether an arrival is worth keeping. -/
  improves : σ → Arrival → Except OutOfRange Bool
  /-- Keeps an arrival that is worth it, and gives it a number. -/
  accept : σ → Arrival → Except OutOfRange (σ × Nat)
  /-- Notes that an arrival is not kept. -/
  reject : σ → Arrival → σ
  /-- All arrivals that have been accepted. -/
  log : σ → ArrivalLog
  /-- The earliest arrival at a stop with at most the given rounds. -/
  bestTime : σ → Stop → Nat → Except OutOfRange (Option Time)
  /-- How many arrivals were dropped for want of room. -/
  truncations : σ → Nat
  /-- Whether the first of two passengers on a route makes the second one redundant at a position. -/
  outrides : Rider → Rider → Position → Bool

namespace ArrivalStore

variable {σ : Type} [ArrivalStore σ]

/-- Accepts an arrival that is worth keeping, or rejects it. -/
def offer (s : σ) (a : Arrival) : Except OutOfRange (σ × Option Nat) := do
  if ← improves s a then
    let (s, id) ← accept s a
    return (s, some id)
  else return (reject s a, none)

end ArrivalStore

end JourneyPlanner
