import JourneyPlanner.Search.ArrivalStore
/-!
# Watching a search

`Observed` wraps a store of arrivals and writes down each decision. It passes every call on, so the
search goes on as it would without it.
-/
namespace JourneyPlanner

/-- A decision about an arrival, and the round in which it was made. -/
inductive ArrivalEvent where
  | accepted (round : Nat) (arrival : Arrival)
  | rejected (round : Nat) (arrival : Arrival)
  deriving DecidableEq, Repr

/-- A store of arrivals, and the decisions it has made. -/
structure Observed (σ : Type) where
  inner : σ
  events : Array ArrivalEvent

namespace Observed

variable {σ : Type} [ArrivalStore σ]

/-- A store that has made no decisions. -/
def watch (s : σ) : Observed σ := ⟨s, #[]⟩

/-- Writes down that an arrival is accepted, before the store takes it. -/
def noteAccepted (s : Observed σ) (a : Arrival) : Observed σ :=
  { s with events := s.events.push (.accepted (ArrivalStore.round s.inner) a) }

/-- Writes down that an arrival is rejected, before the store is told. -/
def noteRejected (s : Observed σ) (a : Arrival) : Observed σ :=
  { s with events := s.events.push (.rejected (ArrivalStore.round s.inner) a) }

/-- The store after a proposal that could not be decided. An arrival that is worth keeping has been
written down by then. -/
def afterFailure (s : Observed σ) (a : Arrival) : Observed σ :=
  match ArrivalStore.improves s.inner a with
  | .ok true => s.noteAccepted a
  | _ => s

end Observed

instance {σ : Type} [ArrivalStore σ] : ArrivalStore (Observed σ) where
  beginIteration s i := { s with inner := ArrivalStore.beginIteration s.inner i }
  beginRound s r := { s with inner := ArrivalStore.beginRound s.inner r }
  round s := ArrivalStore.round s.inner
  changes s := ArrivalStore.changes s.inner
  boardable s := ArrivalStore.boardable s.inner
  transferable s := ArrivalStore.transferable s.inner
  improves s := ArrivalStore.improves s.inner
  accept s a := do
    let s := s.noteAccepted a
    let (inner, id) ← ArrivalStore.accept s.inner a
    return ({ s with inner := inner }, id)
  reject s a :=
    let s := s.noteRejected a
    { s with inner := ArrivalStore.reject s.inner a }
  log s := ArrivalStore.log s.inner
  bestTime s := ArrivalStore.bestTime s.inner
  truncations s := ArrivalStore.truncations s.inner
  outrides := ArrivalStore.outrides σ

end JourneyPlanner
