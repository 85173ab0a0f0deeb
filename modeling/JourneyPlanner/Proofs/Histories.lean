import JourneyPlanner.Proofs.Stores
/-!
# Histories of a store

A store changes by the calls of a search: an iteration begins, a round begins, an arrival is offered.
`ArrivalStore.performAll` makes some calls one after another, in any order. `StoreCall.offers` lists what
they have offered, accepted or not, each arrival under the round that was current then. A law about a
store compares what it tells with this list.
-/
namespace JourneyPlanner

/-- A call that may change a store. -/
inductive StoreCall where
  | beginIteration (iteration : Nat)
  | beginRound (round : Nat)
  | offer (a : Arrival)
  deriving DecidableEq, Repr

/-- An arrival that has been offered, and the round in which it was. -/
structure Offer where
  round : Nat
  arrival : Arrival
  deriving DecidableEq, Repr

namespace StoreCall

/-- The round after a call, if it was `round` before. -/
def nextRound (round : Nat) : StoreCall → Nat
  | .beginIteration _ => 0
  | .beginRound k => k
  | .offer _ => round

/-- The round after some calls, if it was `round` before. -/
def lastRound (round : Nat) (calls : List StoreCall) : Nat := calls.foldl nextRound round

/-- The call names a stop below `stops` or a round up to `maxRounds`. -/
def Fits (stops maxRounds : Nat) : StoreCall → Prop
  | .beginIteration _ => True
  | .beginRound k => k ≤ maxRounds
  | .offer a => a.stop < stops

instance (stops maxRounds : Nat) : (call : StoreCall) → Decidable (call.Fits stops maxRounds)
  | .beginIteration _ => inferInstanceAs (Decidable True)
  | .beginRound k => inferInstanceAs (Decidable (k ≤ maxRounds))
  | .offer a => inferInstanceAs (Decidable (a.stop < stops))

/-- What a call offers in a round. -/
def offer? (round : Nat) : StoreCall → Option Offer
  | .offer a => some ⟨round, a⟩
  | _ => none

/-- What some calls have offered, if the round was `round` before. -/
def offers (round : Nat) : List StoreCall → List Offer
  | [] => []
  | call :: calls => (call.offer? round).toList ++ offers (call.nextRound round) calls

/-- The arrivals that some calls have offered to a new store at a stop, in the rounds up to `k`. -/
def offeredBy (calls : List StoreCall) (stop : Stop) (k : Nat) : List Arrival :=
  ((offers 0 calls).filter fun o => o.arrival.stop = stop ∧ o.round ≤ k).map (·.arrival)

/-- All arrivals that some calls have offered to a new store at a stop. -/
def offeredAt (calls : List StoreCall) (stop : Stop) : List Arrival :=
  ((offers 0 calls).filter fun o => o.arrival.stop = stop).map (·.arrival)

variable {round : Nat} {calls calls' : List StoreCall} {call : StoreCall}

theorem Fits.nextRound_le {stops maxRounds : Nat} (h : call.Fits stops maxRounds) (hround : round ≤ maxRounds) :
    call.nextRound round ≤ maxRounds := by
  cases call with
  | beginIteration i => exact Nat.zero_le _
  | beginRound k => exact h
  | offer a => exact hround

@[simp] theorem lastRound_append : lastRound round (calls ++ calls') = lastRound (lastRound round calls) calls' :=
  List.foldl_append

@[simp] theorem offers_append :
    offers round (calls ++ calls') = offers round calls ++ offers (lastRound round calls) calls' := by
  induction calls generalizing round with
  | nil => rfl
  | cons call calls ih => simp [offers, lastRound, ih]

theorem offers_concat :
    offers round (calls ++ [call]) = offers round calls ++ (call.offer? (lastRound round calls)).toList := by
  simp [offers]

theorem mem_offers_map_offer {as : List Arrival} {o : Offer} :
    o ∈ offers round (as.map .offer) ↔ o.round = round ∧ o.arrival ∈ as := by
  induction as with
  | nil => simp [offers]
  | cons a as ih =>
    obtain ⟨k, b⟩ := o
    simp only [List.map_cons, offers, offer?, nextRound, List.mem_append, ih, Option.mem_toList,
      Option.some.injEq, Offer.mk.injEq, List.mem_cons]
    constructor
    · rintro (⟨rfl, rfl⟩ | ⟨h, h'⟩)
      · exact ⟨rfl, .inl rfl⟩
      · exact ⟨h, .inr h'⟩
    · rintro ⟨rfl, rfl | h⟩
      · exact .inl ⟨rfl, rfl⟩
      · exact .inr ⟨rfl, h⟩

theorem mem_offeredBy {a : Arrival} {stop : Stop} {k : Nat} :
    a ∈ offeredBy calls stop k ↔ ∃ o ∈ offers 0 calls, o.arrival.stop = stop ∧ o.round ≤ k ∧ o.arrival = a := by
  simp [offeredBy, and_assoc]

end StoreCall

namespace ArrivalStore

variable {σ : Type} [ArrivalStore σ]

/-- Makes a call. -/
def perform (s : σ) : StoreCall → Except OutOfRange σ
  | .beginIteration i => .ok (beginIteration s i)
  | .beginRound k => .ok (beginRound s k)
  | .offer a => (offer s a).map (·.1)

/-- Makes some calls, one after another. -/
def performAll (s : σ) (calls : List StoreCall) : Except OutOfRange σ := calls.foldlM perform s

variable {s t : σ} {calls calls' : List StoreCall}

theorem performAll_append : performAll s (calls ++ calls') = performAll s calls >>= fun t => performAll t calls' :=
  List.foldlM_append

theorem performAll_append_of_eq (h : performAll s calls = .ok t) :
    performAll s (calls ++ calls') = performAll t calls' := by
  rw [performAll_append, h, ok_bind]

theorem performAll_concat {call : StoreCall} {t' : σ} (h : performAll s calls = .ok t)
    (hcall : perform t call = .ok t') :
    performAll s (calls ++ [call]) = .ok t' := by
  rw [performAll_append_of_eq h, performAll, List.foldlM_cons, hcall]
  rfl

end ArrivalStore

end JourneyPlanner
