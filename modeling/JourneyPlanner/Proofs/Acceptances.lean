import JourneyPlanner.Proofs.FirstOccurrences
import JourneyPlanner.Proofs.Histories
/-!
# What a search has had accepted

A search numbers its iterations and, in each of them, its rounds from 0, and offers arrivals in between
(`SearchOrder`). `Noted.performAll` makes the calls of a search and notes each arrival that the store
accepts, with its number and with the iteration and the round that were current then. What the store lists
as changed in a round are the stops of these acceptances (`RoundChanges.Lists`).
-/
namespace JourneyPlanner

/-- The calls of a search in their order: the iterations are numbered from 0, and so are the rounds of each one, up
to a limit. Arrivals are offered at any time. The indices are the current iteration and the last round that has
begun in it. -/
inductive SearchOrder (stops limit : Nat) : List StoreCall → Nat → Option Nat → Prop
  | start : SearchOrder stops limit [.beginIteration 0] 0 none
  | iteration {calls : List StoreCall} {i : Nat} {k : Option Nat} : SearchOrder stops limit calls i k →
      i + 1 < 16777216 → SearchOrder stops limit (calls ++ [.beginIteration (i + 1)]) (i + 1) none
  | firstRound {calls : List StoreCall} {i : Nat} : SearchOrder stops limit calls i none →
      SearchOrder stops limit (calls ++ [.beginRound 0]) i (some 0)
  | nextRound {calls : List StoreCall} {i k : Nat} : SearchOrder stops limit calls i (some k) → k + 1 ≤ limit →
      SearchOrder stops limit (calls ++ [.beginRound (k + 1)]) i (some (k + 1))
  | offer {calls : List StoreCall} {i : Nat} {k : Option Nat} {a : Arrival} : SearchOrder stops limit calls i k →
      a.stop < stops → SearchOrder stops limit (calls ++ [.offer a]) i k

/-- An arrival that a store has accepted, the number it has got, and when that was. -/
structure Acceptance where
  iteration : Nat
  round : Nat
  id : Nat
  arrival : Arrival
  deriving DecidableEq, Repr

namespace Acceptance

/-- The stops of some acceptances, each once, in the order of the first ones. -/
def stops (as : List Acceptance) : List Stop := (as.map (·.arrival.stop)).eraseDups

/-- Those of some acceptances that were made in a round of an iteration. -/
def ofRound (iteration round : Nat) (as : List Acceptance) : List Acceptance :=
  as.filter fun x => x.iteration = iteration ∧ x.round = round

variable {as : List Acceptance} {i k : Nat}

theorem stops_concat (as : List Acceptance) (x : Acceptance) :
    stops (as ++ [x]) = RoundChanges.enter x.arrival.stop (stops as) := by
  unfold stops RoundChanges.enter
  rw [List.map_append, List.map_singleton, eraseDups_concat]

theorem mem_stops {stop : Stop} : stop ∈ stops as ↔ ∃ x ∈ as, x.arrival.stop = stop := by
  unfold stops
  rw [List.mem_eraseDups, List.mem_map]

theorem ofRound_concat (i k id : Nat) (a : Arrival) (as : List Acceptance) :
    ofRound i k (as ++ [⟨i, k, id, a⟩]) = ofRound i k as ++ [⟨i, k, id, a⟩] := by
  simp [ofRound]

/-- The acceptances have been made up to a round of an iteration, and no round has been above the limit. -/
def UpTo (limit iteration round : Nat) (as : List Acceptance) : Prop :=
  ∀ x ∈ as, x.round ≤ limit ∧ (x.iteration < iteration ∨ x.iteration = iteration ∧ x.round ≤ round)

theorem UpTo.iteration {limit : Nat} (h : UpTo limit i k as) : UpTo limit (i + 1) 0 as :=
  fun x hx => ⟨(h x hx).1, by have := (h x hx).2; omega⟩

theorem UpTo.round {limit : Nat} (h : UpTo limit i k as) : UpTo limit i (k + 1) as :=
  fun x hx => ⟨(h x hx).1, by have := (h x hx).2; omega⟩

theorem UpTo.concat {limit id : Nat} {a : Arrival} (h : UpTo limit i k as) (hk : k ≤ limit) :
    UpTo limit i k (as ++ [⟨i, k, id, a⟩]) := by
  intro x hx
  rcases List.mem_append.1 hx with hx | hx
  · exact h x hx
  · rw [List.mem_singleton.1 hx]
    exact ⟨hk, .inr ⟨rfl, Nat.le_refl _⟩⟩

/-- Nothing has been accepted in a round to come. -/
theorem UpTo.ofRound_eq_nil {limit i' k' : Nat} (h : UpTo limit i k as) (hlater : i < i' ∨ i = i' ∧ k < k') :
    ofRound i' k' as = [] := by
  refine List.filter_eq_nil_iff.2 fun x hx => ?_
  have := (h x hx).2
  simp only [decide_eq_true_eq]
  omega

end Acceptance

open Acceptance

/-! ## The stops that have changed -/

namespace RoundChanges

/-- The changes list the stops of the acceptances of the round before, if there is one, of the current round, and of
those of the current round that were on board. -/
structure Lists (c : RoundChanges) (iteration round : Nat) (as : List Acceptance) : Prop where
  previous : c.previous = stops (as.filter fun x => x.iteration = iteration ∧ x.round + 1 = round)
  current : c.current = stops (ofRound iteration round as)
  onBoard : c.onBoard = stops ((ofRound iteration round as).filter (·.arrival.onBoard))

variable {c : RoundChanges} {limit i k id : Nat} {as : List Acceptance} {a : Arrival}

/-- When an iteration begins, nothing of it has been accepted. -/
theorem lists_none (h : UpTo limit i k as) : Lists .none (i + 1) 0 as := by
  have hround : ofRound (i + 1) 0 as = [] := h.ofRound_eq_nil (.inl (Nat.lt_succ_self i))
  refine ⟨?_, by rw [hround]; rfl, by rw [hround]; rfl⟩
  rw [List.filter_eq_nil_iff.2 fun x _ => by simp]
  rfl

/-- The current round becomes the one before. -/
theorem Lists.next (h : c.Lists i k as) (hup : UpTo limit i k as) : c.next.Lists i (k + 1) as := by
  have hround : ofRound i (k + 1) as = [] := hup.ofRound_eq_nil (.inr ⟨rfl, Nat.lt_succ_self k⟩)
  refine ⟨?_, by rw [hround]; rfl, by rw [hround]; rfl⟩
  show c.current = _
  simp only [h.current, ofRound, Nat.add_right_cancel_iff]

/-- An accepted arrival adds its stop to the current round. -/
theorem Lists.record (h : c.Lists i k as) : (c.record a).Lists i k (as ++ [⟨i, k, id, a⟩]) := by
  have hround := ofRound_concat i k id a as
  refine ⟨?_, ?_, ?_⟩
  · rw [List.filter_append, List.filter_cons_of_neg (by simp), List.filter_nil, List.append_nil]
    exact h.previous
  · rw [hround, stops_concat, ← h.current]
    rfl
  · rw [hround, List.filter_append]
    show (if a.onBoard then enter a.stop c.onBoard else c.onBoard) = _
    split
    · rename_i honBoard
      rw [List.filter_cons_of_pos (by exact honBoard), List.filter_nil, stops_concat, ← h.onBoard]
    · rename_i hnot
      rw [List.filter_cons_of_neg (by exact hnot), List.filter_nil, List.append_nil]
      exact h.onBoard

end RoundChanges

/-! ## Noting what is accepted -/

/-- A store in the course of a search, where the search is, and what the store has accepted so far. -/
structure Noted (σ : Type) where
  store : σ
  iteration : Nat
  round : Nat
  accepted : List Acceptance

namespace Noted

variable {σ : Type} [ArrivalStore σ]

/-- Makes a call, and notes the arrival that it may offer if the store accepts it. -/
def perform (w : Noted σ) : StoreCall → Except OutOfRange (Noted σ)
  | .beginIteration i => .ok ⟨ArrivalStore.beginIteration w.store i, i, 0, w.accepted⟩
  | .beginRound k => .ok ⟨ArrivalStore.beginRound w.store k, w.iteration, k, w.accepted⟩
  | .offer a => do
    let (s, id?) ← ArrivalStore.offer w.store a
    return ⟨s, w.iteration, w.round, w.accepted ++ (id?.map fun id => ⟨w.iteration, w.round, id, a⟩).toList⟩

/-- Makes some calls to a store, one after another. -/
def performAll (s : σ) (calls : List StoreCall) : Except OutOfRange (Noted σ) :=
  calls.foldlM perform ⟨s, 0, 0, []⟩

/-- Noting changes nothing. -/
theorem performAll_store (s : σ) (calls : List StoreCall) :
    (performAll s calls).map (·.store) = ArrivalStore.performAll s calls := by
  suffices h : ∀ w : Noted σ, (calls.foldlM perform w).map (·.store) = ArrivalStore.performAll w.store calls from h _
  induction calls with
  | nil => exact fun w => rfl
  | cons call calls ih =>
    intro w
    have hcall : ArrivalStore.perform w.store call = (w.perform call).map (·.store) := by
      cases call with
      | beginIteration i => rfl
      | beginRound k => rfl
      | offer a =>
        show (ArrivalStore.offer w.store a).map _ = (ArrivalStore.offer w.store a >>= _).map _
        cases ArrivalStore.offer w.store a <;> rfl
    rw [ArrivalStore.performAll, List.foldlM_cons, List.foldlM_cons, hcall]
    cases w.perform call with
    | error e => rfl
    | ok w' => exact ih w'

theorem performAll_concat (s : σ) (calls : List StoreCall) (call : StoreCall) :
    performAll s (calls ++ [call]) = performAll s calls >>= fun w => w.perform call := by
  unfold performAll
  rw [List.foldlM_append]
  simp only [List.foldlM_cons, List.foldlM_nil, bind_pure]

/-- What holds in the course of every search: it holds at the start of the first iteration, and the calls of a
search keep it. -/
theorem performAll_gives {s : σ} {P : Noted σ → Prop} {stops limit i : Nat} {k : Option Nat} {calls : List StoreCall}
    (h : SearchOrder stops limit calls i k) (hstart : P ⟨ArrivalStore.beginIteration s 0, 0, 0, []⟩)
    (hiteration : ∀ w, P w → w.iteration + 1 < 16777216 →
      P ⟨ArrivalStore.beginIteration w.store (w.iteration + 1), w.iteration + 1, 0, w.accepted⟩)
    (hfirst : ∀ w, P w → w.round = 0 → P ⟨ArrivalStore.beginRound w.store 0, w.iteration, 0, w.accepted⟩)
    (hround : ∀ w, P w → w.round + 1 ≤ limit →
      P ⟨ArrivalStore.beginRound w.store (w.round + 1), w.iteration, w.round + 1, w.accepted⟩)
    (hoffer : ∀ w a, P w → a.stop < stops → ∃ r, ArrivalStore.offer w.store a = .ok r ∧
      P ⟨r.1, w.iteration, w.round, w.accepted ++ (r.2.map fun id => ⟨w.iteration, w.round, id, a⟩).toList⟩) :
    ∃ w, performAll s calls = .ok w ∧ P w ∧ w.iteration = i ∧ w.round = k.getD 0 := by
  induction h with
  | start => exact ⟨_, rfl, hstart, rfl, rfl⟩
  | iteration _ hi ih =>
    obtain ⟨w, hw, hP, rfl, -⟩ := ih
    rw [performAll_concat, hw]
    exact ⟨_, rfl, hiteration w hP hi, rfl, rfl⟩
  | firstRound _ ih =>
    obtain ⟨w, hw, hP, rfl, hzero⟩ := ih
    rw [performAll_concat, hw]
    exact ⟨_, rfl, hfirst w hP hzero, rfl, rfl⟩
  | nextRound _ hk ih =>
    obtain ⟨w, hw, hP, rfl, hround'⟩ := ih
    obtain rfl : w.round = _ := hround'
    rw [performAll_concat, hw]
    exact ⟨_, rfl, hround w hP hk, rfl, rfl⟩
  | offer _ hstop ih =>
    obtain ⟨w, hw, hP, hi, hk⟩ := ih
    obtain ⟨r, hr, hP'⟩ := hoffer w _ hP hstop
    rw [performAll_concat, hw]
    refine ⟨_, ?_, hP', hi, hk⟩
    show (ArrivalStore.offer w.store _ >>= _) = _
    rw [hr]
    rfl

/-- The search is in a round of an iteration, the numbers and the log of the store are those of the acceptances, and its
changes list the stops of those of this round and the one before. -/
structure Booked (limit : Nat) (w : Noted σ) : Prop where
  upTo : UpTo limit w.iteration w.round w.accepted
  iteration_lt : w.iteration < 16777216
  round_le : w.round ≤ limit
  ids : w.accepted.map (·.id) = List.range w.accepted.length
  log : (ArrivalStore.log w.store).records.toList = w.accepted.map (·.arrival)
  lists : (ArrivalStore.changes w.store).Lists w.iteration w.round w.accepted

section Booked

variable {s : σ} {w : Noted σ} {limit : Nat} {a : Arrival}

theorem booked_start (hlog : ArrivalStore.log s = .empty) (hchanges : ArrivalStore.changes s = .none) :
    Booked limit ⟨s, 0, 0, []⟩ where
  upTo _ hx := by cases hx
  iteration_lt := Nat.zero_lt_succ _
  round_le := Nat.zero_le _
  ids := rfl
  log := by rw [hlog]; rfl
  lists := by rw [hchanges]; exact ⟨rfl, rfl, rfl⟩

theorem Booked.iteration (h : w.Booked limit) (hi : w.iteration + 1 < 16777216)
    (hlog : ArrivalStore.log s = ArrivalStore.log w.store) (hchanges : ArrivalStore.changes s = .none) :
    Booked limit ⟨s, w.iteration + 1, 0, w.accepted⟩ where
  upTo := h.upTo.iteration
  iteration_lt := hi
  round_le := Nat.zero_le _
  ids := h.ids
  log := hlog ▸ h.log
  lists := hchanges ▸ RoundChanges.lists_none h.upTo

theorem Booked.firstRound (h : w.Booked limit) (hzero : w.round = 0)
    (hlog : ArrivalStore.log s = ArrivalStore.log w.store)
    (hchanges : ArrivalStore.changes s = ArrivalStore.changes w.store) :
    Booked limit ⟨s, w.iteration, 0, w.accepted⟩ where
  upTo := hzero ▸ h.upTo
  iteration_lt := h.iteration_lt
  round_le := Nat.zero_le _
  ids := h.ids
  log := hlog ▸ h.log
  lists := hchanges ▸ hzero ▸ h.lists

theorem Booked.round (h : w.Booked limit) (hk : w.round + 1 ≤ limit)
    (hlog : ArrivalStore.log s = ArrivalStore.log w.store)
    (hchanges : ArrivalStore.changes s = (ArrivalStore.changes w.store).next) :
    Booked limit ⟨s, w.iteration, w.round + 1, w.accepted⟩ where
  upTo := h.upTo.round
  iteration_lt := h.iteration_lt
  round_le := hk
  ids := h.ids
  log := hlog ▸ h.log
  lists := hchanges ▸ h.lists.next h.upTo

/-- The store numbers what it accepts by the size of its log. -/
theorem Booked.size_log (h : w.Booked limit) : (ArrivalStore.log w.store).size = w.accepted.length := by
  have hlength := congrArg List.length h.log
  rwa [Array.length_toList, List.length_map] at hlength

theorem Booked.accept (h : w.Booked limit) (hlog : ArrivalStore.log s = (ArrivalStore.log w.store).push a)
    (hchanges : ArrivalStore.changes s = (ArrivalStore.changes w.store).record a) : Booked limit
      ⟨s, w.iteration, w.round, w.accepted ++ [⟨w.iteration, w.round, (ArrivalStore.log w.store).size, a⟩]⟩ where
  upTo := h.upTo.concat h.round_le
  iteration_lt := h.iteration_lt
  round_le := h.round_le
  ids := by
    show (w.accepted ++ [_]).map Acceptance.id = List.range (w.accepted ++ [_]).length
    rw [List.map_append, h.ids, List.length_append, List.map_singleton, h.size_log]
    exact List.range_succ.symm
  log := by
    show (ArrivalStore.log s).records.toList = (w.accepted ++ [_]).map Acceptance.arrival
    rw [hlog, List.map_append, ← h.log]
    exact Array.toList_push
  lists := hchanges ▸ h.lists.record

theorem Booked.nodup_ids (h : w.Booked limit) : (w.accepted.map (·.id)).Nodup := h.ids ▸ List.nodup_range

end Booked

end Noted

end JourneyPlanner
