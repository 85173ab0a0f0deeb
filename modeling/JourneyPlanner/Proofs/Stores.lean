import JourneyPlanner.Proofs.Gives
import JourneyPlanner.Proofs.Clock
import JourneyPlanner.Search.ArrivalStore
/-!
# What a search relies on about a store

`LawfulStore` lists the laws that the rounds of a search are proved from. A store hands out arrivals
that it has accepted at the stop asked for, in the round meant. It rejects an arrival only for one that
is as good (`ArrivalLog.Reaches`). As long as nothing is dropped for want of room, an arrival or a
better one is handed out again when its turn comes (`ArrivalStore.Keeps`). Not every store compares
costs, so that what is said of costs depends on a condition.
-/
namespace JourneyPlanner

/-! ## The log -/

namespace ArrivalLog

variable {log log' : ArrivalLog} {id : Nat} {a b : Arrival}

theorem get?_eq_ok : log.get? id = .ok a ↔ log.records[id]? = some a := by
  unfold get?
  split
  · rename_i h
    rw [h, Except.ok.injEq, Option.some.injEq]
  · rename_i h
    rw [h]
    constructor <;> intro h <;> cases h

theorem get?_inj (ha : log.get? id = .ok a) (hb : log.get? id = .ok b) : a = b := by
  rw [ha] at hb
  exact Except.ok.inj hb

theorem lt_size (h : log.get? id = .ok a) : id < log.size :=
  (Array.getElem?_eq_some_iff.1 (get?_eq_ok.1 h)).1

theorem get?_of_lt (h : id < log.size) : ∃ a, log.get? id = .ok a :=
  ⟨_, get?_eq_ok.2 (Array.getElem?_eq_getElem h)⟩

theorem get?_push_self : (log.push a).get? log.size = .ok a := by
  rw [get?_eq_ok]
  exact Array.getElem?_push_size

theorem get?_push (h : log.get? id = .ok a) : (log.push b).get? id = .ok a := by
  have hlt := lt_size h
  rw [get?_eq_ok] at *
  rw [← h]
  exact Array.getElem?_push_lt hlt ▸ (Array.getElem?_eq_getElem hlt).symm

/-- An arrival of the longer log was there before, or is the new one. -/
theorem get?_push_cases (h : (log.push b).get? id = .ok a) :
    log.get? id = .ok a ∨ id = log.size ∧ a = b := by
  rw [get?_eq_ok] at *
  simp only [push] at h
  rw [Array.getElem?_push] at h
  split at h
  · rename_i hid
    cases h
    exact .inr ⟨hid, rfl⟩
  · exact .inl h

/-- What holds of the arrivals of a log and of one more holds once that one has been added. -/
theorem forall_push {P : Arrival → Prop} (h : ∀ id a, log.get? id = .ok a → P a) (hb : P b) :
    ∀ id a, (log.push b).get? id = .ok a → P a := by
  intro id a ha
  rcases get?_push_cases ha with ha | ⟨_, rfl⟩
  · exact h id a ha
  · exact hb

/-- The second log has the arrivals of the first one under the same numbers. -/
def Extends (log log' : ArrivalLog) : Prop := ∀ id a, log.get? id = .ok a → log'.get? id = .ok a

theorem extends_refl (log : ArrivalLog) : log.Extends log := fun _ _ h => h

theorem extends_push (log : ArrivalLog) (a : Arrival) : log.Extends (log.push a) := fun _ _ h => get?_push h

theorem Extends.trans {log'' : ArrivalLog} (h : log.Extends log') (h' : log'.Extends log'') :
    log.Extends log'' :=
  fun id a ha => h' id a (h id a ha)

theorem Extends.size_le (h : log.Extends log') : log.size ≤ log'.size := by
  cases hsize : log.size with
  | zero => exact Nat.zero_le _
  | succ n =>
    obtain ⟨a, ha⟩ := get?_of_lt (show n < log.size by omega)
    exact lt_size (h n a ha)

/-- What the longer log has under a number of the shorter one, that one has too. -/
theorem Extends.get? (h : log.Extends log') (hid : id < log.size) (ha : log'.get? id = .ok a) :
    log.get? id = .ok a := by
  obtain ⟨b, hb⟩ := get?_of_lt hid
  rw [hb, get?_inj (h id b hb) ha]

/-- Some arrival of the log is at the stop no later, in no later round, and on board if that is asked. Under
the condition `C` it costs no more, either. -/
def Reaches (C : Prop) (log : ArrivalLog) (stop : Stop) (time : Time) (cost : Int) (round : Nat) (onBoard : Bool) :
    Prop :=
  ∃ id a, log.get? id = .ok a ∧ a.stop = stop ∧ a.time ≤ time ∧ (C → a.cost ≤ cost) ∧ a.round ≤ round ∧
    (onBoard = true → a.onBoard = true)

section Reaches

variable {C C' : Prop} {stop : Stop} {time time' : Time} {cost cost' : Int} {round round' : Nat} {onBoard : Bool}

theorem Reaches.mono (h : log.Reaches C stop time cost round onBoard) (hlog : log.Extends log') (hC : C' → C) :
    log'.Reaches C' stop time cost round onBoard := by
  obtain ⟨id, a, ha, hstop, htime, hcost, h⟩ := h
  exact ⟨id, a, hlog id a ha, hstop, htime, fun h => hcost (hC h), h⟩

theorem Reaches.le (h : log.Reaches C stop time cost round onBoard) (htime : time ≤ time')
    (hcost : C → cost ≤ cost') (hround : round ≤ round') : log.Reaches C stop time' cost' round' onBoard := by
  obtain ⟨id, a, ha, hstop, hle, hpaid, hle', honBoard⟩ := h
  exact ⟨id, a, ha, hstop, Time.le_trans hle htime, fun h => Int.le_trans (hpaid h) (hcost h),
    Nat.le_trans hle' hround, honBoard⟩

end Reaches

/-- Among the numbers handed out is one of an arrival with the property. -/
def Hands (log : ArrivalLog) (answer : Except OutOfRange (List Nat)) (P : Arrival → Prop) : Prop :=
  ∃ ids, answer = .ok ids ∧ ∃ id ∈ ids, ∃ a, log.get? id = .ok a ∧ P a

theorem Hands.mono {answer : Except OutOfRange (List Nat)} {P Q : Arrival → Prop} (h : log.Hands answer P)
    (hlog : log.Extends log') (hpq : ∀ a, P a → Q a) : log'.Hands answer Q := by
  obtain ⟨ids, hids, id, hid, a, ha, hP⟩ := h
  exact ⟨ids, hids, id, hid, a, hlog id a ha, hpq a hP⟩

end ArrivalLog

/-! ## What has changed -/

namespace RoundChanges

variable {c : RoundChanges} {a : Arrival} {stop : Stop}

theorem mem_enter {stops : List Stop} {x : Stop} : x ∈ enter stop stops ↔ x ∈ stops ∨ x = stop := by
  unfold enter
  split
  · rename_i h
    constructor
    · exact .inl
    · rintro (hx | rfl)
      · exact hx
      · exact h
  · simp

theorem mem_current_record : stop ∈ (c.record a).current ↔ stop ∈ c.current ∨ stop = a.stop := mem_enter

theorem mem_onBoard_record :
    stop ∈ (c.record a).onBoard ↔ stop ∈ c.onBoard ∨ stop = a.stop ∧ a.onBoard = true := by
  simp only [record]
  split
  · rename_i h
    rw [mem_enter, h]
    simp
  · rename_i h
    simp [h]

theorem forall_onBoard_record {P : Stop → Prop} (h : ∀ stop ∈ c.onBoard, P stop) (ha : P a.stop) :
    ∀ stop ∈ (c.record a).onBoard, P stop := by
  intro stop hstop
  rcases mem_onBoard_record.1 hstop with hstop | ⟨rfl, _⟩
  · exact h stop hstop
  · exact ha

theorem onBoard_beginRound {round : Nat} (h : stop ∈ (c.beginRound round).onBoard) : stop ∈ c.onBoard := by
  simp only [beginRound] at h
  split at h
  · cases h
  · exact h

end RoundChanges

/-! ## The laws -/

namespace ArrivalStore

variable {σ : Type} [ArrivalStore σ]

/-- An arrival that has been decided about has been rejected, or accepted under a number. -/
theorem of_offer_eq_ok {s s' : σ} {a : Arrival} {id? : Option Nat} (h : offer s a = .ok (s', id?)) :
    (s' = reject s a ∧ id? = none) ∨ ∃ id, accept s a = .ok (s', id) ∧ id? = some id := by
  unfold offer at h
  obtain ⟨better, -, h⟩ := of_bind_eq_ok h
  cases better with
  | false =>
    cases h
    exact .inl ⟨rfl, rfl⟩
  | true =>
    obtain ⟨⟨s'', id⟩, haccept, h⟩ := of_bind_eq_ok h
    cases h
    exact .inr ⟨id, haccept, rfl⟩

/-- The arrivals from number `first` on, which the current round has accepted, will have their turn:
they, or others that are as good, are handed out to board from in the next round, and those on board
to walk on from in this one. Under the condition `C` those others cost no more, either. -/
structure Keeps (C : Prop) (s : σ) (first : Nat) : Prop where
  round : ∀ id a, first ≤ id → (log s).get? id = .ok a → a.round = round s
  changed : ∀ id a, first ≤ id → (log s).get? id = .ok a → a.stop ∈ (changes s).current
  boards : ∀ id a, first ≤ id → (log s).get? id = .ok a →
    (log s).Hands (boardable (beginRound s (ArrivalStore.round s + 1)) a.stop) fun b =>
      b.time ≤ a.time ∧ (0 < b.rides → 0 < a.rides) ∧ (C → b.cost ≤ a.cost)
  walks : ∀ id a, first ≤ id → (log s).get? id = .ok a → a.onBoard = true →
    a.stop ∈ (changes s).onBoard ∧
      (log s).Hands (transferable s a.stop) fun b => b.time ≤ a.time ∧ (C → b.cost ≤ a.cost)

theorem keeps_size (C : Prop) (s : σ) : Keeps C s (log s).size := by
  constructor <;>
    · intro id a hid ha
      exact absurd (ArrivalLog.lt_size ha) (Nat.not_lt.2 hid)

/-- A store that has recorded one more arrival of the round keeps what was kept if it hands out something
as good for each arrival. -/
theorem Keeps.push {C : Prop} {s t : σ} {a : Arrival} {first : Nat} (h : Keeps C s first) (hlog : log t = (log s).push a)
    (hround : ArrivalStore.round t = ArrivalStore.round s) (hchanges : changes t = (changes s).record a)
    (ha : a.round = ArrivalStore.round s)
    (hboards : ∀ id b, first ≤ id → (log t).get? id = .ok b → b.round = ArrivalStore.round t →
      (log t).Hands (boardable (beginRound t (ArrivalStore.round t + 1)) b.stop) fun c =>
        c.time ≤ b.time ∧ (0 < c.rides → 0 < b.rides) ∧ (C → c.cost ≤ b.cost))
    (hwalks : ∀ id b, first ≤ id → (log t).get? id = .ok b → b.onBoard = true →
      b.stop ∈ (changes t).onBoard →
        (log t).Hands (transferable t b.stop) fun c => c.time ≤ b.time ∧ (C → c.cost ≤ b.cost)) : Keeps C t first := by
  have hcases : ∀ id b, (log t).get? id = .ok b → (log s).get? id = .ok b ∨ b = a := by
    intro id b hb
    rw [hlog] at hb
    exact (ArrivalLog.get?_push_cases hb).imp_right And.right
  have hrounds : ∀ id b, first ≤ id → (log t).get? id = .ok b → b.round = ArrivalStore.round t := by
    intro id b hid hb
    rw [hround]
    rcases hcases id b hb with hb | rfl
    · exact h.round id b hid hb
    · exact ha
  refine ⟨hrounds, ?_, fun id b hid hb => hboards id b hid hb (hrounds id b hid hb), ?_⟩
  · intro id b hid hb
    rw [hchanges, RoundChanges.mem_current_record]
    rcases hcases id b hb with hb | rfl
    · exact .inl (h.changed id b hid hb)
    · exact .inr rfl
  · intro id b hid hb honBoard
    have hchanged : b.stop ∈ (changes t).onBoard := by
      rw [hchanges, RoundChanges.mem_onBoard_record]
      rcases hcases id b hb with hb | rfl
      · exact .inl (h.walks id b hid hb honBoard).1
      · exact .inr ⟨rfl, honBoard⟩
    exact ⟨hchanged, hwalks id b hid hb honBoard hchanged⟩

/-- What the store `s'` is after `s` has accepted `a`. -/
structure Accepted (C : Prop) (s : σ) (a : Arrival) (s' : σ) : Prop where
  log : log s' = (log s).push a
  round : round s' = round s
  previous : (changes s').previous = (changes s).previous
  truncations : truncations s ≤ truncations s'
  boardable : ArrivalStore.truncations s' = 0 → ∀ stop, boardable s' stop = boardable s stop
  keeps : ArrivalStore.truncations s' = 0 →
    ∀ first ≤ (ArrivalStore.log s).size, Keeps C s first → Keeps C s' first

end ArrivalStore

open ArrivalStore in
/-- A store for stops below `stops` and rounds up to `rounds` that keeps what it promises. -/
class LawfulStore (σ : Type) [ArrivalStore σ] where
  /-- The store has been made by its own operations. -/
  Good : (stops rounds : Nat) → σ → Prop
  /-- Whether the store keeps an arrival that costs less than every other one. -/
  Heeds : Prop
  /-- The rides that an arrival of a round may have. -/
  Tallies : (rides round : Nat) → Prop
  tallies_self : ∀ k, Tallies k k
  rides_le : ∀ {rides round}, Tallies rides round → rides ≤ round
  reject_eq : ∀ (s : σ) (a : Arrival), reject s a = s
  log_beginIteration : ∀ (s : σ) (i : Nat), log (beginIteration s i) = log s
  log_beginRound : ∀ (s : σ) (k : Nat), log (beginRound s k) = log s
  round_beginRound : ∀ (s : σ) (k : Nat), round (beginRound s k) = k
  previous_beginRound : ∀ (s : σ) (k : Nat),
    (changes (beginRound s (k + 1))).previous = (changes s).current
  truncations_beginIteration : ∀ (s : σ) (i : Nat), truncations (beginIteration s i) = truncations s
  truncations_beginRound : ∀ (s : σ) (k : Nat), truncations (beginRound s k) = truncations s
  good_beginIteration : ∀ {n m} {s : σ}, Good n m s → ∀ i, Good n m (beginIteration s i)
  good_beginRound : ∀ {n m} {s : σ}, Good n m s → ∀ k ≤ m, Good n m (beginRound s k)
  good_tallies : ∀ {n m} {s : σ}, Good n m s → ∀ id a, (log s).get? id = .ok a → Tallies a.rides a.round
  onBoard_lt : ∀ {n m} {s : σ}, Good n m s → ∀ stop ∈ (changes s).onBoard, stop < n
  boardable_gives : ∀ {n m} {s : σ}, Good n m s → ∀ stop < n, Gives (boardable s stop) fun ids =>
    ∀ id ∈ ids, ∃ a, (log s).get? id = .ok a ∧ a.stop = stop ∧ Tallies (a.rides + 1) (round s)
  transferable_gives : ∀ {n m} {s : σ}, Good n m s → ∀ stop < n, Gives (transferable s stop) fun ids =>
    ∀ id ∈ ids, ∃ a, (log s).get? id = .ok a ∧ a.stop = stop ∧ a.onBoard = true ∧ Tallies a.rides (round s)
  improves_gives : ∀ {n m} {s : σ} {a : Arrival}, Good n m s → a.stop < n → a.round = round s →
    Tallies a.rides a.round → Gives (improves s a) fun better =>
      better = false → (log s).Reaches Heeds a.stop a.time a.cost a.round a.onBoard
  accept_gives : ∀ {n m} {s : σ} {a : Arrival}, Good n m s → a.stop < n → a.round = round s →
    Tallies a.rides a.round → improves s a = .ok true →
    Gives (accept s a) fun r => r.2 = (log s).size ∧ Good n m r.1 ∧ Accepted Heeds s a r.1
  outrides_le : ∀ {a b : Rider} {p : Position}, outrides σ a b p = true →
    a.run.departure p ≤ b.run.departure p

end JourneyPlanner
