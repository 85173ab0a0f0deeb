import JourneyPlanner.Proofs.EarliestStore
import JourneyPlanner.Proofs.Histories
/-!
# What the earliest arrivals tell of their history

Each of the two rows of a stop recalls a part of what has been offered there: one row all of it, the
other one what was on board. A row recalls an offer if it has a mark no later in no later round, so the
marks that are left are the earliest ones. An arrival on board that its own row has rejected has its
better in the row for any kind, too, so neither row forgets what only the other one has looked at.
-/
namespace JourneyPlanner

namespace StopRows

variable {log log' : ArrivalLog} {row : List (Option Mark)} {offered offered' : Offer → Prop} {j k : Nat} {m : Mark}

/-- A row has only marks of what was offered, each in its round, and no offer was before all marks of
its round and those before. -/
structure Recalls (log : ArrivalLog) (offered : Offer → Prop) (row : List (Option Mark)) : Prop where
  marks : ∀ (j : Nat) (m : Mark), row[j]? = some (some m) →
    ∃ o, offered o ∧ o.round = j ∧ log.get? m.id = .ok o.arrival ∧ m.time = o.arrival.time
  recalled : ∀ o, offered o → ∃ j ≤ o.round, ∃ m, row[j]? = some (some m) ∧ m.time ≤ o.arrival.time

theorem recalls_blank (log : ArrivalLog) (rounds : Nat) (hnone : ∀ o, ¬ offered o) :
    Recalls log offered (List.replicate rounds none) := by
  refine ⟨?_, fun o ho => absurd ho (hnone o)⟩
  intro j m hm
  simp [List.getElem?_replicate] at hm

/-! ## What a row tells -/

theorem Recalls.none_of_earliest (h : Recalls log offered row) (he : earliest row k = none) :
    ∀ o, offered o → ¬ o.round ≤ k := by
  intro o ho hk
  obtain ⟨j, hj, m, hm, _⟩ := h.recalled o ho
  obtain ⟨e, he', _⟩ := earliest_le (Nat.le_trans hj hk) hm
  rw [he] at he'
  cases he'

theorem Recalls.of_earliest (h : Recalls log offered row) (he : earliest row k = some m) :
    (∃ o, offered o ∧ o.round ≤ k ∧ log.get? m.id = .ok o.arrival ∧ m.time = o.arrival.time) ∧
      ∀ o, offered o → o.round ≤ k → m.time ≤ o.arrival.time := by
  constructor
  · obtain ⟨j, hj, hm⟩ := earliest_mem he
    obtain ⟨o, ho, rfl, hlog, htime⟩ := h.marks j m hm
    exact ⟨o, ho, hj, hlog, htime⟩
  · intro o ho hk
    obtain ⟨j, hj, m', hm', hle⟩ := h.recalled o ho
    obtain ⟨e, he', hle'⟩ := earliest_le (Nat.le_trans hj hk) hm'
    rw [he] at he'
    cases he'
    exact Time.le_trans hle' hle

/-- A time is before the marks of the rounds so far if it is before all that was offered in them. -/
theorem Recalls.isEarlier_iff (h : Recalls log offered row) {time : Time} :
    isEarlier row k time = true ↔ ∀ o, offered o → o.round ≤ k → time < o.arrival.time := by
  constructor
  · intro hearlier o ho hk
    obtain ⟨j, hj, m, hm, hle⟩ := h.recalled o ho
    have hlt := isEarlier_lt hearlier (Nat.le_trans hj hk) hm
    exact Time.not_le.1 fun hle' => Time.not_le.2 hlt (Time.le_trans hle hle')
  · intro hall
    refine Bool.not_eq_false _ ▸ fun hnot => ?_
    obtain ⟨j, hj, m, hm, hle⟩ := not_isEarlier hnot
    obtain ⟨o, ho, rfl, _, htime⟩ := h.marks j m hm
    exact Time.not_le.2 (hall o ho hj) (htime ▸ hle)

/-! ## One more offer -/

theorem Recalls.mono (h : Recalls log offered row) (hlog : log.Extends log') (hsame : ∀ o, offered' o ↔ offered o) :
    Recalls log' offered' row := by
  refine ⟨?_, fun o ho => h.recalled o ((hsame o).1 ho)⟩
  intro j m hm
  obtain ⟨o, ho, hj, hget, htime⟩ := h.marks j m hm
  exact ⟨o, (hsame o).2 ho, hj, hlog _ _ hget, htime⟩

/-- An offer that is not before the marks may be left out. -/
theorem Recalls.keep (h : Recalls log offered row) (hlog : log.Extends log') {o : Offer}
    (hkept : ∃ j ≤ o.round, ∃ m, row[j]? = some (some m) ∧ m.time ≤ o.arrival.time)
    (hmore : ∀ o', offered' o' ↔ offered o' ∨ o' = o) : Recalls log' offered' row := by
  constructor
  · intro j m hm
    obtain ⟨o', ho', hj, hget, htime⟩ := h.marks j m hm
    exact ⟨o', (hmore o').2 (.inl ho'), hj, hlog _ _ hget, htime⟩
  · intro o' ho'
    rcases (hmore o').1 ho' with ho' | rfl
    · exact h.recalled o' ho'
    · exact hkept

/-- An offer that is before the marks of the rounds so far is entered in the current one. -/
theorem Recalls.set (h : Recalls log offered row) (hlog : log.Extends log') {o : Offer}
    (hget : log'.get? m.id = .ok o.arrival) (htime : m.time = o.arrival.time) (hround : o.round < row.length)
    (hearlier : isEarlier row o.round m.time = true) (hmore : ∀ o', offered' o' ↔ offered o' ∨ o' = o) :
    Recalls log' offered' (row.set o.round (some m)) := by
  constructor
  · intro j mark hmark
    rcases set_cases hmark with hmark | ⟨rfl, rfl⟩
    · obtain ⟨o', ho', hj, hget', htime'⟩ := h.marks j mark hmark
      exact ⟨o', (hmore o').2 (.inl ho'), hj, hlog _ _ hget', htime'⟩
    · exact ⟨o, (hmore o).2 (.inr rfl), rfl, hget, htime⟩
  · intro o' ho'
    rcases (hmore o').1 ho' with ho' | rfl
    · obtain ⟨j, hj, mark, hmark, hle⟩ := h.recalled o' ho'
      by_cases hjk : j = o.round
      · -- The mark that is replaced was later than the new one.
        subst hjk
        have hlt := isEarlier_lt hearlier (Nat.le_refl _) hmark
        exact ⟨_, hj, m, List.getElem?_set_self hround, Time.le_trans (Time.le_of_lt hlt) hle⟩
      · exact ⟨j, hj, mark, by rw [List.getElem?_set_ne (Ne.symm hjk)]; exact hmark, hle⟩
    · exact ⟨_, Nat.le_refl _, m, List.getElem?_set_self hround, htime ▸ Time.le_refl _⟩

end StopRows

/-! ## Both rows of every stop -/

namespace Offer

/-- The offers at a stop, all of them or those on board. -/
def At (offers : List Offer) (stop : Stop) (onBoard : Bool) (o : Offer) : Prop :=
  o ∈ offers ∧ o.arrival.stop = stop ∧ (onBoard = true → o.arrival.onBoard = true)

variable {offers : List Offer} {stop : Stop} {onBoard : Bool} {o o' : Offer}

theorem at_concat (h : o.arrival.stop = stop) (h' : onBoard = true → o.arrival.onBoard = true) :
    At (offers ++ [o]) stop onBoard o' ↔ At offers stop onBoard o' ∨ o' = o := by
  unfold At
  rw [List.mem_append, List.mem_singleton]
  constructor
  · rintro ⟨ho' | ho', hat⟩
    · exact .inl ⟨ho', hat⟩
    · exact .inr ho'
  · rintro (⟨ho', hat⟩ | rfl)
    · exact ⟨.inl ho', hat⟩
    · exact ⟨.inr rfl, h, h'⟩

theorem at_concat_of_not (h : ¬ (o.arrival.stop = stop ∧ (onBoard = true → o.arrival.onBoard = true))) :
    At (offers ++ [o]) stop onBoard o' ↔ At offers stop onBoard o' := by
  unfold At
  rw [List.mem_append, List.mem_singleton]
  constructor
  · rintro ⟨ho' | rfl, hat⟩
    · exact ⟨ho', hat⟩
    · exact absurd hat h
  · exact fun ⟨ho', hat⟩ => ⟨.inl ho', hat⟩

end Offer

namespace StopRows

/-- Both rows of a stop recall what they have been offered. -/
def Recall (log : ArrivalLog) (offers : List Offer) (stop : Stop) (rows : StopRows) : Prop :=
  ∀ onBoard, Recalls log (Offer.At offers stop onBoard) (rows.rowsFor onBoard)

variable {log log' : ArrivalLog} {offers : List Offer} {stop : Stop} {rows : StopRows} {o : Offer} {id : Nat}

/-- What is offered at another stop changes nothing. -/
theorem Recall.elsewhere (h : rows.Recall log offers stop) (hlog : log.Extends log') (hne : o.arrival.stop ≠ stop) :
    rows.Recall log' (offers ++ [o]) stop := by
  intro onBoard
  exact (h onBoard).mono hlog fun _ => Offer.at_concat_of_not fun ⟨hstop, _⟩ => hne hstop

/-- A rejected arrival is no earlier than what both rows recall. -/
theorem Recall.rejected (h : rows.Recall log offers stop) (hstop : o.arrival.stop = stop)
    (hbetter : rows.improves o.round o.arrival = false) : rows.Recall log (offers ++ [o]) stop := by
  obtain ⟨j, hj, m, hm, hle⟩ := not_isEarlier hbetter
  intro onBoard
  by_cases hkind : onBoard = true → o.arrival.onBoard = true
  · refine (h onBoard).keep (ArrivalLog.extends_refl log) ?_ fun _ => Offer.at_concat hstop hkind
    -- The mark is one of an offer that is of this kind, too.
    obtain ⟨o', ⟨ho', hstop', hkind'⟩, rfl, _, htime⟩ := (h o.arrival.onBoard).marks j m hm
    obtain ⟨j', hj', m', hm', hle'⟩ := (h onBoard).recalled o' ⟨ho', hstop', fun h => hkind' (hkind h)⟩
    exact ⟨j', Nat.le_trans hj' hj, m', hm', Time.le_trans hle' (htime ▸ hle)⟩
  · exact (h onBoard).mono (ArrivalLog.extends_refl log) fun _ => Offer.at_concat_of_not fun ⟨_, h⟩ => hkind h

/-- An accepted arrival is entered in each row in which it is the earliest. -/
theorem Recall.enter (h : rows.Recall log offers stop) (hlog : log.Extends log') (hget : log'.get? id = .ok o.arrival)
    (hstop : o.arrival.stop = stop) (hround : ∀ onBoard, o.round < (rows.rowsFor onBoard).length)
    (hbetter : rows.improves o.round o.arrival = true) :
    (rows.enter o.round o.arrival id).Recall log' (offers ++ [o]) stop := by
  intro onBoard
  cases onBoard with
  | false =>
    have hmore : ∀ o', Offer.At (offers ++ [o]) stop false o' ↔ Offer.At offers stop false o' ∨ o' = o :=
      fun _ => Offer.at_concat hstop fun h => by cases h
    show Recalls log' _ (if isEarlier rows.any o.round o.arrival.time then _ else _)
    split
    · rename_i hearlier
      exact (h false).set (m := ⟨id, o.arrival.time⟩) hlog hget rfl (hround false) hearlier hmore
    · rename_i hnot
      exact (h false).keep hlog (not_isEarlier (Bool.eq_false_iff.2 hnot)) hmore
  | true =>
    show Recalls log' _ (if o.arrival.onBoard then _ else _)
    split
    · rename_i hkind
      simp only [improves, hkind] at hbetter
      exact (h true).set (m := ⟨id, o.arrival.time⟩) hlog hget rfl (hround true) hbetter fun _ =>
        Offer.at_concat hstop fun _ => hkind
    · rename_i hkind
      exact (h true).mono hlog fun _ => Offer.at_concat_of_not fun ⟨_, h⟩ => hkind (h rfl)

end StopRows

namespace EarliestArrivals

open ArrivalStore

variable {n m : Nat} {offers : List Offer} {s s' : EarliestArrivals} {calls : List StoreCall} {stop : Stop}
  {a : Arrival}

/-- The store has two rows for each of `n` stops, with room for the rounds up to `m`, and they recall
what has been offered. -/
structure Recalls (n m : Nat) (offers : List Offer) (s : EarliestArrivals) : Prop where
  size : s.stops.size = n
  length : ∀ (stop : Nat) (rows : StopRows), s.stops[stop]? = some rows →
    ∀ onBoard, (rows.rowsFor onBoard).length = m + 1
  atStop : ∀ (stop : Nat) (rows : StopRows), s.stops[stop]? = some rows → rows.Recall s.log offers stop
  logged : ∀ id a, s.log.get? id = .ok a → ∃ o ∈ offers, o.arrival = a

theorem recalls_init (n m : Nat) : Recalls n m [] (init n m) := by
  have hrows : ∀ (stop : Nat) (rows : StopRows), (init n m).stops[stop]? = some rows →
      ∀ onBoard, rows.rowsFor onBoard = List.replicate (m + 1) none := by
    intro stop rows h onBoard
    obtain ⟨_, rfl⟩ := Array.getElem?_eq_some_iff.1 h
    cases onBoard <;> simp [init, StopRows.rowsFor, StopRows.blank]
  refine ⟨by simp [init], ?_, ?_, fun id a h => by cases h⟩
  · intro stop rows h onBoard
    rw [hrows stop rows h, List.length_replicate]
  · intro stop rows h onBoard
    rw [hrows stop rows h]
    exact StopRows.recalls_blank _ _ fun o ho => by cases ho.1

/-- What an offer does: it is accepted if it improves the rows of its kind, which then have its round. -/
theorem offer_cases {r : EarliestArrivals × Option Nat} (h : offer s a = .ok r) :
    ∃ rows, s.stops[a.stop]? = some rows ∧
      ((rows.improves s.round a = true ∧ s.round < rows.rounds ∧ r = (s.accepted a, some s.log.size)) ∨
        (rows.improves s.round a = false ∧ r = (s, none))) := by
  obtain ⟨better, hbetter, h⟩ := of_bind_eq_ok h
  obtain ⟨rows, hrows, rfl⟩ := of_map_eq_ok (show (s.rows? a.stop).map _ = .ok better from hbetter)
  have hrows := of_rows?_eq_ok hrows
  refine ⟨rows, hrows, ?_⟩
  cases hbetter : rows.improves s.round a with
  | false =>
    rw [hbetter, if_neg (by simp)] at h
    exact .inr ⟨rfl, (Except.ok.inj h).symm⟩
  | true =>
    rw [hbetter, if_pos rfl] at h
    obtain ⟨⟨t, id⟩, ht, h⟩ := of_bind_eq_ok h
    change s.accept a = _ at ht
    unfold accept at ht
    rw [rows?_eq hrows, ok_bind] at ht
    split at ht
    · rename_i hround
      obtain ⟨rfl, rfl⟩ := Prod.mk.inj (Except.ok.inj ht)
      exact .inl ⟨rfl, hround, (Except.ok.inj h).symm⟩
    · cases ht

theorem offer_eq {rows : StopRows} (hrows : s.stops[a.stop]? = some rows) (hround : s.round < rows.rounds) :
    offer s a = .ok (if rows.improves s.round a then (s.accepted a, some s.log.size) else (s, none)) := by
  have hbetter : ArrivalStore.improves s a = .ok (rows.improves s.round a) := by
    show (s.rows? a.stop).map _ = _
    rw [rows?_eq hrows]
    rfl
  have haccept : ArrivalStore.accept s a = .ok (s.accepted a, s.log.size) := by
    show s.accept a = _
    unfold accept
    rw [rows?_eq hrows, ok_bind, if_pos hround]
    rfl
  unfold offer
  rw [hbetter, ok_bind]
  cases rows.improves s.round a with
  | false => rfl
  | true =>
    rw [if_pos rfl, if_pos rfl, haccept]
    rfl

theorem offer_gives {rows : StopRows} (hrows : s.stops[a.stop]? = some rows) (hround : s.round < rows.rounds) :
    ∃ r, offer s a = .ok r ∧ r.2.isSome = rows.improves s.round a := by
  refine ⟨_, offer_eq hrows hround, ?_⟩
  cases rows.improves s.round a <;> rfl

theorem Recalls.accepted (h : Recalls n m offers s) {rows : StopRows} (hrows : s.stops[a.stop]? = some rows)
    (hbetter : rows.improves s.round a = true) (hround : s.round < rows.rounds) :
    Recalls n m (offers ++ [⟨s.round, a⟩]) (s.accepted a) := by
  refine ⟨by simp only [EarliestArrivals.accepted, Array.size_modify, h.size], ?_, ?_, ?_⟩
  · intro stop rows' hrows' onBoard
    obtain ⟨old, hold, rfl⟩ := stops_accepted hrows'
    have hold' := h.length stop old hold onBoard
    split
    · cases onBoard with
      | false => exact StopRows.length_any_enter.trans hold'
      | true => exact StopRows.length_onBoard_enter.trans hold'
    · exact hold'
  · intro stop rows' hrows'
    obtain ⟨old, hold, rfl⟩ := stops_accepted hrows'
    have hrecall := h.atStop stop old hold
    split
    · rename_i hstop
      rw [hstop, hold] at hrows
      cases hrows
      refine hrecall.enter (o := ⟨s.round, a⟩) (ArrivalLog.extends_push _ _) ArrivalLog.get?_push_self hstop ?_ hbetter
      intro onBoard
      rw [h.length stop rows hold, ← h.length stop rows hold false]
      exact hround
    · rename_i hne
      exact hrecall.elsewhere (ArrivalLog.extends_push _ _) hne
  · intro id b hb
    rcases ArrivalLog.get?_push_cases hb with hb | ⟨-, rfl⟩
    · obtain ⟨o, ho, heq⟩ := h.logged id b hb
      exact ⟨o, List.mem_append_left _ ho, heq⟩
    · exact ⟨_, List.mem_append_right _ (List.mem_singleton_self _), rfl⟩

theorem Recalls.rejected (h : Recalls n m offers s) {rows : StopRows} (hrows : s.stops[a.stop]? = some rows)
    (hbetter : rows.improves s.round a = false) : Recalls n m (offers ++ [⟨s.round, a⟩]) s := by
  refine ⟨h.size, h.length, ?_, ?_⟩
  · intro stop rows' hrows'
    have hrecall := h.atStop stop rows' hrows'
    by_cases hstop : a.stop = stop
    · subst hstop
      rw [hrows] at hrows'
      cases hrows'
      exact hrecall.rejected rfl hbetter
    · exact hrecall.elsewhere (ArrivalLog.extends_refl _) hstop
  · intro id b hb
    obtain ⟨o, ho, heq⟩ := h.logged id b hb
    exact ⟨o, List.mem_append_left _ ho, heq⟩

/-- What one call keeps. -/
theorem Recalls.of_perform (h : Recalls n m offers s) {call : StoreCall} (hcall : perform s call = .ok s') :
    Recalls n m (offers ++ (call.offer? s.round).toList) s' ∧ s'.round = call.nextRound s.round := by
  cases call with
  | beginIteration i =>
    cases hcall
    exact ⟨by simpa [StoreCall.offer?] using ⟨h.size, h.length, h.atStop, h.logged⟩, rfl⟩
  | beginRound k =>
    cases hcall
    exact ⟨by simpa [StoreCall.offer?] using ⟨h.size, h.length, h.atStop, h.logged⟩, rfl⟩
  | offer a =>
    obtain ⟨r, hr, rfl⟩ := of_map_eq_ok hcall
    obtain ⟨rows, hrows, ⟨hbetter, hround, rfl⟩ | ⟨hbetter, rfl⟩⟩ := offer_cases hr
    · exact ⟨h.accepted hrows hbetter hround, rfl⟩
    · exact ⟨h.rejected hrows hbetter, rfl⟩

/-- What all calls keep: the store recalls the whole history. -/
theorem recalls_of_performAll (h : performAll (init n m) calls = .ok s) :
    Recalls n m (StoreCall.offers 0 calls) s ∧ s.round = StoreCall.lastRound 0 calls := by
  refine of_foldlM_eq_ok
    (P := fun done s => Recalls n m (StoreCall.offers 0 done) s ∧ s.round = StoreCall.lastRound 0 done)
    h ⟨recalls_init n m, rfl⟩ ?_
  intro done call rest s s' _ ⟨hs, hround⟩ hcall
  have key := hs.of_perform hcall
  rw [hround] at key
  rw [StoreCall.offers_concat, StoreCall.lastRound_append]
  exact key

/-! ## What the store tells -/

/-- The number is that of an earliest one of some arrivals; there is none only if there are no arrivals. -/
def IsEarliest (log : ArrivalLog) (as : List Arrival) : Option Nat → Prop
  | none => as = []
  | some id => ∃ a ∈ as, log.get? id = .ok a ∧ ∀ b ∈ as, a.time ≤ b.time

/-- The store tells what was the earliest of what some calls have offered at each stop in the rounds up to
each one, and it goes by that to accept an arrival and to hand one out. -/
structure TellsEarliest (n m : Nat) (calls : List StoreCall) (s : EarliestArrivals) : Prop where
  bestTime : ∀ stop < n, ∀ k ≤ m,
    ArrivalStore.bestTime s stop k = .ok ((StoreCall.offeredBy calls stop k).map (·.time)).min?
  /-- An arrival is accepted if it is earlier than all that it is compared with: an arrival on board is
  compared with those on board only. -/
  accepts : ∀ a : Arrival, a.stop < n → ∃ r, offer s a = .ok r ∧
    (r.2.isSome ↔ ∀ b ∈ StoreCall.offeredBy calls a.stop (StoreCall.lastRound 0 calls),
      (a.onBoard = true → b.onBoard = true) → a.time < b.time)
  boardable : ∀ stop < n, ∀ k, StoreCall.lastRound 0 calls = k + 1 → ∃ any onBoard : Option Nat,
    ArrivalStore.boardable s stop = .ok (any.toList ++ if onBoard = any then [] else onBoard.toList) ∧
    IsEarliest (log s) (StoreCall.offeredBy calls stop k) any ∧
    IsEarliest (log s) ((StoreCall.offeredBy calls stop k).filter (·.onBoard)) onBoard

/-- An offer of the history is one of those that a row recalls. -/
theorem at_iff {k : Nat} {onBoard : Bool} {a : Arrival} :
    (∃ o, Offer.At (StoreCall.offers 0 calls) stop onBoard o ∧ o.round ≤ k ∧ o.arrival = a) ↔
      a ∈ StoreCall.offeredBy calls stop k ∧ (onBoard = true → a.onBoard = true) := by
  rw [StoreCall.mem_offeredBy]
  constructor
  · rintro ⟨o, ⟨ho, hstop, hkind⟩, hk, rfl⟩
    exact ⟨⟨o, ho, hstop, hk, rfl⟩, hkind⟩
  · rintro ⟨⟨o, ho, hstop, hk, rfl⟩, hkind⟩
    exact ⟨o, ⟨ho, hstop, hkind⟩, hk, rfl⟩

/-- The earliest mark of a row is the mark of an earliest arrival of those that the row recalls. -/
theorem isEarliest_of_recalls {row : List (Option Mark)} {onBoard : Bool} {log : ArrivalLog} {as : List Arrival}
    {k : Nat}
    (h : StopRows.Recalls log (Offer.At (StoreCall.offers 0 calls) stop onBoard) row)
    (has : ∀ a, a ∈ as ↔ a ∈ StoreCall.offeredBy calls stop k ∧ (onBoard = true → a.onBoard = true)) :
    IsEarliest log as ((StopRows.earliest row k).map (·.id)) := by
  cases he : StopRows.earliest row k with
  | none =>
    refine List.eq_nil_iff_forall_not_mem.2 fun a ha => ?_
    obtain ⟨o, ho, hk, -⟩ := at_iff.2 ((has a).1 ha)
    exact h.none_of_earliest he o ho hk
  | some m =>
    obtain ⟨⟨o, ho, hk, hget, htime⟩, hle⟩ := h.of_earliest he
    refine ⟨o.arrival, (has _).2 (at_iff.1 ⟨o, ho, hk, rfl⟩), hget, ?_⟩
    intro b hb
    obtain ⟨o', ho', hk', rfl⟩ := at_iff.2 ((has b).1 hb)
    exact htime ▸ hle o' ho' hk'

theorem Recalls.rows (h : Recalls n m offers s) (hstop : stop < n) : ∃ rows, s.stops[stop]? = some rows := by
  rw [← h.size] at hstop
  exact ⟨_, Array.getElem?_eq_getElem hstop⟩

theorem Recalls.bestTime_eq (h : Recalls n m (StoreCall.offers 0 calls) s) (hstop : stop < n) (k : Nat) :
    ArrivalStore.bestTime s stop k = .ok ((StoreCall.offeredBy calls stop k).map (·.time)).min? := by
  obtain ⟨rows, hrows⟩ := h.rows hstop
  have hrow : StopRows.Recalls s.log _ rows.any := h.atStop stop rows hrows false
  have hall : ∀ a, a ∈ StoreCall.offeredBy calls stop k ↔
      a ∈ StoreCall.offeredBy calls stop k ∧ (false = true → a.onBoard = true) := by simp
  have key := isEarliest_of_recalls hrow hall
  show (s.rows? stop).map _ = _
  rw [rows?_eq hrows]
  refine congrArg Except.ok ?_
  show (StopRows.earliest rows.any k).map (·.time) = _
  cases he : StopRows.earliest rows.any k with
  | none =>
    rw [he] at key
    rw [show StoreCall.offeredBy calls stop k = [] from key]
    rfl
  | some mark =>
    rw [he] at key
    obtain ⟨a, ha, hget, hle⟩ := key
    obtain ⟨⟨o, -, -, hget', htime⟩, -⟩ := hrow.of_earliest he
    rw [ArrivalLog.get?_inj hget' hget] at htime
    symm
    rw [Option.map_some, htime, List.min?_eq_some_iff]
    exact ⟨List.mem_map_of_mem ha, by simpa using hle⟩

theorem Recalls.boardable_eq (h : Recalls n m (StoreCall.offers 0 calls) s) (hstop : stop < n) {k : Nat}
    (hround : s.round = k + 1) : ∃ any onBoard : Option Nat,
      ArrivalStore.boardable s stop = .ok (any.toList ++ if onBoard = any then [] else onBoard.toList) ∧
      IsEarliest s.log (StoreCall.offeredBy calls stop k) any ∧
      IsEarliest s.log ((StoreCall.offeredBy calls stop k).filter (·.onBoard)) onBoard := by
  obtain ⟨rows, hrows⟩ := h.rows hstop
  refine ⟨(StopRows.earliest rows.any k).map (·.id), (StopRows.earliest rows.onBoard k).map (·.id), ?_,
    isEarliest_of_recalls (h.atStop stop rows hrows false) (by simp),
    isEarliest_of_recalls (h.atStop stop rows hrows true) (by simp)⟩
  show s.boardable stop = _
  unfold boardable
  rw [hround, rows?_eq hrows]
  rfl

theorem Recalls.improves_iff (h : Recalls n m (StoreCall.offers 0 calls) s) {rows : StopRows}
    (hrows : s.stops[a.stop]? = some rows) {k : Nat} : rows.improves k a = true ↔
      ∀ b ∈ StoreCall.offeredBy calls a.stop k, (a.onBoard = true → b.onBoard = true) → a.time < b.time := by
  refine (h.atStop a.stop rows hrows a.onBoard).isEarlier_iff.trans ⟨?_, ?_⟩
  · intro hall b hb hkind
    obtain ⟨o, ho, hk, rfl⟩ := at_iff.2 ⟨hb, hkind⟩
    exact hall o ho hk
  · intro hall o ho hk
    obtain ⟨hb, hkind⟩ := at_iff.1 ⟨o, ho, hk, rfl⟩
    exact hall o.arrival hb hkind

theorem Recalls.round_lt (h : Recalls n m offers s) {rows : StopRows} (hrows : s.stops[stop]? = some rows)
    (hround : s.round ≤ m) : s.round < rows.rounds := by
  have hlength : rows.rounds = m + 1 := h.length stop rows hrows false
  omega

/-- A call that stays within the stops and the rounds succeeds. -/
theorem Recalls.exists_perform (h : Recalls n m offers s) (hround : s.round ≤ m) {call : StoreCall}
    (hfits : call.Fits n m) : ∃ s', perform s call = .ok s' := by
  cases call with
  | beginIteration i => exact ⟨_, rfl⟩
  | beginRound k => exact ⟨_, rfl⟩
  | offer a =>
    obtain ⟨rows, hrows⟩ := h.rows hfits
    obtain ⟨r, hr, -⟩ := offer_gives hrows (h.round_lt hrows hround)
    refine ⟨r.1, ?_⟩
    rw [perform, hr]
    rfl

/-- Calls that stay within the stops and the rounds succeed. -/
theorem performAll_gives (hfits : ∀ call ∈ calls, call.Fits n m) :
    Gives (performAll (init n m) calls) fun s =>
      Recalls n m (StoreCall.offers 0 calls) s ∧ s.round = StoreCall.lastRound 0 calls ∧ s.round ≤ m := by
  refine gives_foldlM (P := fun done s => Recalls n m (StoreCall.offers 0 done) s ∧
    s.round = StoreCall.lastRound 0 done ∧ s.round ≤ m) calls _ ⟨recalls_init n m, rfl, Nat.zero_le m⟩ ?_
  intro done call rest s hcalls ⟨hs, hround, hle⟩
  have hcall := hfits call (by simp [hcalls])
  obtain ⟨s', hs'⟩ := hs.exists_perform hle hcall
  obtain ⟨hrecalls, hround'⟩ := hs.of_perform hs'
  refine ⟨s', hs', ?_, ?_, ?_⟩
  · rw [StoreCall.offers_concat, ← hround]
    exact hrecalls
  · rw [StoreCall.lastRound_append, ← hround]
    exact hround'
  · rw [hround']
    exact hcall.nextRound_le hle

/-- After any calls within the stops and the rounds, whatever their order, the store tells the earliest of
what they have offered. -/
theorem performAll_tellsEarliest (n m : Nat) (calls : List StoreCall) (hfits : ∀ call ∈ calls, call.Fits n m) :
    ∃ s, performAll (init n m) calls = .ok s ∧ TellsEarliest n m calls s := by
  obtain ⟨s, hs, hrecalls, hround, hle⟩ := performAll_gives hfits
  refine ⟨s, hs, ?_, ?_, ?_⟩
  · exact fun stop hstop k _ => hrecalls.bestTime_eq hstop k
  · intro a ha
    obtain ⟨rows, hrows⟩ := hrecalls.rows ha
    obtain ⟨r, hr, haccepted⟩ := offer_gives hrows (hrecalls.round_lt hrows hle)
    refine ⟨r, hr, ?_⟩
    rw [haccepted, hround]
    exact hrecalls.improves_iff hrows
  · intro stop hstop k hk
    rw [← hround] at hk
    exact hrecalls.boardable_eq hstop hk

/-- A walk at 8 reaches the stop before a ride at 9, of which only the row on board takes note; a second
ride at 10 is rejected. -/
theorem tellsEarliest_walk_ride :
    let walk : Arrival := ⟨none, 0, .ofSecs 8, 0, 0, 0, .access 0 false⟩
    let ride : Arrival := ⟨none, 0, .ofSecs 9, 1, 0, 1, .ride 0 (.scheduled 0) 0 1 (.ofSecs 5)⟩
    let late : Arrival := ⟨none, 0, .ofSecs 10, 1, 0, 1, .ride 0 (.scheduled 1) 0 1 (.ofSecs 6)⟩
    let calls : List StoreCall := [.beginIteration 0, .beginRound 0, .offer walk, .beginRound 1, .offer ride,
      .offer late, .beginRound 2]
    (∀ call ∈ calls, call.Fits 1 2) ∧
      ∃ s, performAll (init 1 2) calls = .ok s ∧ TellsEarliest 1 2 calls s :=
  ⟨by decide, performAll_tellsEarliest 1 2 _ (by decide)⟩

end EarliestArrivals

end JourneyPlanner
