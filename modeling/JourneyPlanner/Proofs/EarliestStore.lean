import JourneyPlanner.Proofs.Stores
import JourneyPlanner.Search.EarliestArrivals
/-!
# The earliest arrivals are a lawful store

A mark in the row of a round is the mark of an arrival of that round. The earliest mark of the rounds
so far is what an arrival is measured against, so whatever is rejected has its better, and an arrival
that loses its mark loses it to an earlier one.
-/
namespace JourneyPlanner

namespace StopRows

variable {rows : List (Option Mark)} {k : Nat}

/-! ## The earliest mark -/

theorem earlier_cases {best x : Option Mark} {e : Mark} (h : earlier best x = some e) :
    best = some e ∨ x = some e := by
  simp only [earlier] at h
  split at h
  · exact .inl h
  · exact .inr h
  · split at h
    · exact .inl h
    · exact .inr h

theorem earlier_le {best x : Option Mark} {m : Mark} (h : best = some m ∨ x = some m) :
    ∃ e, earlier best x = some e ∧ e.time ≤ m.time := by
  cases best with
  | none =>
    rcases h with h | rfl
    · cases h
    · exact ⟨m, rfl, Time.le_refl _⟩
  | some b =>
    cases x with
    | none =>
      rcases h with h | h
      · cases h
        exact ⟨m, rfl, Time.le_refl _⟩
      · cases h
    | some y =>
      simp only [earlier]
      split
      · rename_i hle
        refine ⟨b, rfl, ?_⟩
        rcases h with h | h <;> cases h
        · exact Time.le_refl _
        · exact hle
      · rename_i hnot
        refine ⟨y, rfl, ?_⟩
        rcases h with h | h <;> cases h
        · exact Time.le_of_lt (Time.not_le.1 hnot)
        · exact Time.le_refl _

theorem foldl_earlier_mem {l : List (Option Mark)} {best : Option Mark} {e : Mark}
    (h : l.foldl earlier best = some e) : best = some e ∨ some e ∈ l := by
  induction l generalizing best with
  | nil => exact .inl h
  | cons x l ih =>
    rcases ih h with h | h
    · rcases earlier_cases h with h | rfl
      · exact .inl h
      · exact .inr (by simp)
    · exact .inr (by simp [h])

theorem foldl_earlier_le {l : List (Option Mark)} {best : Option Mark} {m : Mark} (h : best = some m ∨ some m ∈ l) :
    ∃ e, l.foldl earlier best = some e ∧ e.time ≤ m.time := by
  induction l generalizing best m with
  | nil =>
    rcases h with rfl | h
    · exact ⟨m, rfl, Time.le_refl _⟩
    · cases h
  | cons x l ih =>
    -- The mark is one of the two that come together next, or one of those after them.
    have hcases : (best = some m ∨ x = some m) ∨ some m ∈ l := by
      rcases h with h | h
      · exact .inl (.inl h)
      · rcases List.mem_cons.1 h with h | h
        · exact .inl (.inr h.symm)
        · exact .inr h
    rcases hcases with h | h
    · obtain ⟨e, he, hle⟩ := earlier_le h
      obtain ⟨e', he', hle'⟩ := ih (.inl he)
      exact ⟨e', he', Time.le_trans hle' hle⟩
    · exact ih (.inr h)

theorem some_mem_take {m : Mark} : some m ∈ rows.take (k + 1) ↔ ∃ j ≤ k, rows[j]? = some (some m) := by
  rw [List.mem_take_iff_getElem]
  constructor
  · rintro ⟨j, hj, h⟩
    exact ⟨j, by omega, by rw [← h]; exact List.getElem?_eq_getElem _⟩
  · rintro ⟨j, hj, h⟩
    obtain ⟨hlt, h⟩ := List.getElem?_eq_some_iff.1 h
    exact ⟨j, by omega, h⟩

theorem earliest_mem {e : Mark} (h : earliest rows k = some e) : ∃ j ≤ k, rows[j]? = some (some e) := by
  rcases foldl_earlier_mem h with h | h
  · cases h
  · exact some_mem_take.1 h

theorem earliest_le {j : Nat} {m : Mark} (hj : j ≤ k) (h : rows[j]? = some (some m)) :
    ∃ e, earliest rows k = some e ∧ e.time ≤ m.time :=
  foldl_earlier_le (.inr (some_mem_take.2 ⟨j, hj, h⟩))

theorem isEarlier_lt {time : Time} (h : isEarlier rows k time = true) {j : Nat} {m : Mark} (hj : j ≤ k)
    (hm : rows[j]? = some (some m)) : time < m.time := by
  obtain ⟨e, he, hle⟩ := earliest_le hj hm
  simp only [isEarlier] at h
  rw [he] at h
  have hlt : time < e.time := by simpa using h
  rw [Time.lt_iff] at *
  rw [Time.le_iff] at hle
  omega

theorem not_isEarlier {time : Time} (h : isEarlier rows k time = false) :
    ∃ j ≤ k, ∃ m, rows[j]? = some (some m) ∧ m.time ≤ time := by
  simp only [isEarlier] at h
  cases he : earliest rows k with
  | none => simp [he] at h
  | some e =>
    obtain ⟨j, hj, hm⟩ := earliest_mem he
    refine ⟨j, hj, e, hm, Time.not_lt.1 fun hlt => ?_⟩
    simp [he, hlt] at h

/-! ## Entering an arrival -/

/-- A mark set in a row makes the earliest mark no later. -/
theorem earliest_set_le {m e : Mark} (hearlier : isEarlier rows k m.time = true)
    (he : earliest rows k = some e) :
    ∃ e', earliest (rows.set k (some m)) k = some e' ∧ e'.time ≤ e.time := by
  obtain ⟨j, hj, hmem⟩ := earliest_mem he
  by_cases hjk : j = k
  · subst hjk
    have hlt := isEarlier_lt hearlier (Nat.le_refl _) hmem
    have hlen := (List.getElem?_eq_some_iff.1 hmem).1
    obtain ⟨e', he', hle⟩ := earliest_le (Nat.le_refl j) (List.getElem?_set_self (a := some m) hlen)
    exact ⟨e', he', Time.le_trans hle (Time.le_of_lt hlt)⟩
  · exact earliest_le hj (by rw [List.getElem?_set_ne (Ne.symm hjk)]; exact hmem)

theorem earliest_set_self {m : Mark} (hk : k < rows.length) :
    ∃ e', earliest (rows.set k (some m)) k = some e' ∧ e'.time ≤ m.time :=
  earliest_le (Nat.le_refl k) (List.getElem?_set_self hk)

variable {s : StopRows} {a : Arrival} {id j : Nat} {mark : Mark} {time : Time}

theorem length_any_enter : (s.enter k a id).any.length = s.any.length := by
  simp only [enter]
  split
  · exact List.length_set
  · rfl

theorem length_onBoard_enter : (s.enter k a id).onBoard.length = s.onBoard.length := by
  simp only [enter]
  split
  · exact List.length_set
  · rfl

theorem set_cases {m : Mark} (h : (rows.set k (some m))[j]? = some (some mark)) :
    rows[j]? = some (some mark) ∨ j = k ∧ mark = m := by
  rw [List.getElem?_set] at h
  split at h
  · rename_i hj
    split at h
    · exact .inr ⟨hj.symm, by simpa using h.symm⟩
    · cases h
  · exact .inl h

theorem any_enter_cases (h : (s.enter k a id).any[j]? = some (some mark)) :
    s.any[j]? = some (some mark) ∨ j = k ∧ mark = ⟨id, a.time⟩ := by
  simp only [enter] at h
  split at h
  · exact set_cases h
  · exact .inl h

theorem onBoard_enter_cases (h : (s.enter k a id).onBoard[j]? = some (some mark)) :
    s.onBoard[j]? = some (some mark) ∨ (j = k ∧ mark = ⟨id, a.time⟩) ∧ a.onBoard = true := by
  simp only [enter] at h
  split at h
  · rename_i honBoard
    exact (set_cases h).imp_right fun h => ⟨h, honBoard⟩
  · exact .inl h

/-- Some mark of the rounds so far is no later. -/
def HasBy (s : StopRows) (k : Nat) (time : Time) : Prop :=
  ∃ mark, (earliest s.any k = some mark ∨ earliest s.onBoard k = some mark) ∧ mark.time ≤ time

/-- The mark of the round for arrivals on board is no later. -/
def OnBoardBy (s : StopRows) (k : Nat) (time : Time) : Prop :=
  ∃ mark, s.onBoard[k]? = some (some mark) ∧ mark.time ≤ time

/-- An arrival that improves what it is measured against leaves no mark later than it was. -/
theorem HasBy.enter (h : s.HasBy k time) (hbetter : isEarlier (s.rowsFor a.onBoard) k a.time = true) :
    (s.enter k a id).HasBy k time := by
  obtain ⟨mark, hmark, hle⟩ := h
  simp only [HasBy, StopRows.enter]
  rcases hmark with hmark | hmark
  · split
    · rename_i hearlier
      obtain ⟨e, he, hle'⟩ := earliest_set_le (m := ⟨id, a.time⟩) hearlier hmark
      exact ⟨e, .inl he, Time.le_trans hle' hle⟩
    · exact ⟨mark, .inl hmark, hle⟩
  · by_cases honBoard : a.onBoard = true
    · simp only [rowsFor, if_pos honBoard] at hbetter ⊢
      obtain ⟨e, he, hle'⟩ := earliest_set_le (m := ⟨id, a.time⟩) hbetter hmark
      exact ⟨e, .inr he, Time.le_trans hle' hle⟩
    · rw [if_neg honBoard]
      exact ⟨mark, .inr hmark, hle⟩

/-- Some mark is no later than an arrival that has just been entered. -/
theorem hasBy_enter (hk : k < s.any.length) : (s.enter k a id).HasBy k a.time := by
  simp only [HasBy, StopRows.enter]
  split
  · obtain ⟨e, he, hle⟩ := earliest_set_self (m := ⟨id, a.time⟩) hk
    exact ⟨e, .inl he, hle⟩
  · rename_i hearlier
    obtain ⟨j, hj, mark, hmark, hle⟩ := not_isEarlier (by simpa using hearlier)
    obtain ⟨e, he, hle'⟩ := earliest_le hj hmark
    exact ⟨e, .inl he, Time.le_trans hle' hle⟩

theorem OnBoardBy.enter (h : s.OnBoardBy k time) (hbetter : isEarlier (s.rowsFor a.onBoard) k a.time = true) :
    (s.enter k a id).OnBoardBy k time := by
  obtain ⟨mark, hmark, hle⟩ := h
  simp only [OnBoardBy, StopRows.enter]
  by_cases honBoard : a.onBoard = true
  · simp only [rowsFor, if_pos honBoard] at hbetter ⊢
    have hk := (List.getElem?_eq_some_iff.1 hmark).1
    have hearlier := isEarlier_lt hbetter (Nat.le_refl _) hmark
    exact ⟨_, List.getElem?_set_self hk, Time.le_trans (Time.le_of_lt hearlier) hle⟩
  · rw [if_neg honBoard]
    exact ⟨mark, hmark, hle⟩

theorem onBoardBy_enter (hk : k < s.onBoard.length) (honBoard : a.onBoard = true) :
    (s.enter k a id).OnBoardBy k a.time := by
  simp only [OnBoardBy, StopRows.enter]
  rw [if_pos honBoard]
  exact ⟨_, List.getElem?_set_self hk, Time.le_refl _⟩

/-! ## What is handed out from the rows -/

theorem mem_boardable : id ∈ s.boardable k ↔
    ∃ m, (earliest s.any k = some m ∨ earliest s.onBoard k = some m) ∧ m.id = id := by
  unfold boardable
  cases earliest s.any k with
  | none => cases earliest s.onBoard k <;> simp [eq_comm]
  | some a =>
    cases earliest s.onBoard k with
    | none => simp [eq_comm]
    | some b =>
      -- The same arrival is not handed out twice.
      by_cases h : b.id = a.id
      · simp [h, eq_comm, or_and_right, exists_or]
      · have h' : ¬ a.id = b.id := fun heq => h heq.symm
        simp [h', eq_comm, or_and_right, exists_or]

/-- Entering an arrival changes no row of the rounds before. -/
theorem boardable_enter {previous : Nat} (h : previous < k) :
    (s.enter k a id).boardable previous = s.boardable previous := by
  have hset : ∀ (row : List (Option Mark)) (x : Option Mark),
      earliest (row.set k x) previous = earliest row previous := by
    intro row x
    unfold earliest
    rw [List.take_set_of_le (Nat.succ_le_of_lt h)]
  have hany : earliest (s.enter k a id).any previous = earliest s.any previous := by
    simp only [enter]
    split
    · exact hset _ _
    · rfl
  have honBoard : earliest (s.enter k a id).onBoard previous = earliest s.onBoard previous := by
    simp only [enter]
    split
    · exact hset _ _
    · rfl
  unfold boardable
  rw [hany, honBoard]

end StopRows

/-! ## The invariant -/

namespace EarliestArrivals

/-- The mark belongs to an arrival of the log at the stop in the round. -/
def IsMark (log : ArrivalLog) (stop : Stop) (round : Nat) (onBoard : Bool) (m : Mark) : Prop :=
  ∃ a, log.get? m.id = .ok a ∧ a.stop = stop ∧ a.time = m.time ∧ a.round = round ∧
    (onBoard = true → a.onBoard = true)

/-- The rides that an arrival of a round may have: a later iteration may ride on from an arrival that
an earlier one has made in an earlier round. -/
def Tallies (rides round : Nat) : Prop := rides ≤ round ∧ (0 < round → 0 < rides)

/-- Every mark is the mark of an arrival, and there is a row for each round. -/
structure Good (n m : Nat) (s : EarliestArrivals) : Prop where
  size : s.stops.size = n
  round_le : s.round ≤ m
  any_length : ∀ (stop : Nat) (rows : StopRows), s.stops[stop]? = some rows → rows.any.length = m + 1
  onBoard_length : ∀ (stop : Nat) (rows : StopRows), s.stops[stop]? = some rows →
    rows.onBoard.length = m + 1
  any : ∀ (stop : Nat) (rows : StopRows), s.stops[stop]? = some rows →
    ∀ (j : Nat) (mark : Mark), rows.any[j]? = some (some mark) → IsMark s.log stop j false mark
  onBoard : ∀ (stop : Nat) (rows : StopRows), s.stops[stop]? = some rows →
    ∀ (j : Nat) (mark : Mark), rows.onBoard[j]? = some (some mark) → IsMark s.log stop j true mark
  stop_lt : ∀ id a, s.log.get? id = .ok a → a.stop < n
  tallies : ∀ id a, s.log.get? id = .ok a → Tallies a.rides a.round
  onBoard_lt : ∀ stop ∈ s.changes.onBoard, stop < n

theorem good_init (n m : Nat) : Good n m (init n m) := by
  have hrows : ∀ (stop : Nat) (rows : StopRows), (init n m).stops[stop]? = some rows →
      rows = .blank (m + 1) := by
    intro stop rows h
    obtain ⟨_, h⟩ := Array.getElem?_eq_some_iff.1 h
    rw [← h]
    simp [init]
  refine ⟨by simp [init], Nat.zero_le _, ?_, ?_, ?_, ?_, ?_, ?_, ?_⟩
  · intro stop rows h
    simp [hrows stop rows h, StopRows.blank]
  · intro stop rows h
    simp [hrows stop rows h, StopRows.blank]
  · intro stop rows h j mark hm
    rw [hrows stop rows h] at hm
    simp [StopRows.blank, List.getElem?_replicate] at hm
  · intro stop rows h j mark hm
    rw [hrows stop rows h] at hm
    simp [StopRows.blank, List.getElem?_replicate] at hm
  · intro id a h
    cases h
  · intro id a h
    cases h
  · intro stop h
    cases h

variable {n m : Nat} {s : EarliestArrivals}

theorem Good.beginIteration (h : Good n m s) : Good n m s.beginIteration :=
  ⟨h.1, Nat.zero_le _, h.3, h.4, h.5, h.6, h.7, h.8, fun _ hs => by cases hs⟩

theorem Good.beginRound (h : Good n m s) {k : Nat} (hk : k ≤ m) : Good n m (s.beginRound k) :=
  ⟨h.1, hk, h.3, h.4, h.5, h.6, h.7, h.8, fun stop hstop => h.9 stop (RoundChanges.onBoard_beginRound hstop)⟩

theorem Good.rows (h : Good n m s) {stop : Stop} (hstop : stop < n) : ∃ rows, s.stops[stop]? = some rows := by
  rw [← h.size] at hstop
  exact ⟨_, Array.getElem?_eq_getElem hstop⟩

theorem Good.round_lt_any (h : Good n m s) {stop : Stop} {rows : StopRows} (hrows : s.stops[stop]? = some rows) :
    s.round < rows.any.length := by
  have hlength := h.any_length stop rows hrows
  have hround := h.round_le
  omega

theorem Good.round_lt_onBoard (h : Good n m s) {stop : Stop} {rows : StopRows} (hrows : s.stops[stop]? = some rows) :
    s.round < rows.onBoard.length := by
  have hlength := h.onBoard_length stop rows hrows
  have hround := h.round_le
  omega

/-- An earliest mark is the mark of an arrival of one of the rounds so far. -/
theorem Good.arrival_of_earliest (h : Good n m s) {stop : Stop} {rows : StopRows} (hrows : s.stops[stop]? = some rows)
    {k : Nat} {mark : Mark}
    (hmark : StopRows.earliest rows.any k = some mark ∨ StopRows.earliest rows.onBoard k = some mark) :
    ∃ a, s.log.get? mark.id = .ok a ∧ a.stop = stop ∧ a.time = mark.time ∧ a.round ≤ k := by
  rcases hmark with hmark | hmark
  · obtain ⟨j, hj, hm⟩ := StopRows.earliest_mem hmark
    obtain ⟨a, ha, hstop, htime, rfl, _⟩ := h.any stop rows hrows j mark hm
    exact ⟨a, ha, hstop, htime, hj⟩
  · obtain ⟨j, hj, hm⟩ := StopRows.earliest_mem hmark
    obtain ⟨a, ha, hstop, htime, rfl, _⟩ := h.onBoard stop rows hrows j mark hm
    exact ⟨a, ha, hstop, htime, hj⟩

theorem rows?_eq {stop : Stop} {rows : StopRows} (h : s.stops[stop]? = some rows) :
    s.rows? stop = .ok rows := by
  unfold rows?
  rw [h]

theorem of_rows?_eq_ok {stop : Stop} {rows : StopRows} (h : s.rows? stop = .ok rows) :
    s.stops[stop]? = some rows := by
  unfold rows? at h
  split at h
  · rename_i hrows
    rw [hrows, Except.ok.inj h]
  · cases h

/-! ## Accepting an arrival -/

/-- The store after an arrival has been accepted. -/
def accepted (s : EarliestArrivals) (a : Arrival) : EarliestArrivals :=
  { s with
    log := s.log.push a
    stops := s.stops.modify a.stop fun rows => rows.enter s.round a s.log.size
    changes := s.changes.record a }

theorem accept_eq (h : Good n m s) {a : Arrival} (ha : a.stop < n) :
    s.accept a = .ok (s.accepted a, s.log.size) := by
  obtain ⟨rows, hrows⟩ := h.rows ha
  have hlt : s.round < rows.rounds := h.round_lt_any hrows
  unfold accept
  rw [rows?_eq hrows]
  show (if s.round < rows.rounds then _ else _) = _
  rw [if_pos hlt]
  rfl

/-- Only an arrival at one of the stops is accepted. -/
theorem Good.stop_lt_of_accept (h : Good n m s) {a : Arrival} {r : EarliestArrivals × Nat}
    (haccept : s.accept a = .ok r) : a.stop < n := by
  obtain ⟨rows, hrows, -⟩ := of_bind_eq_ok haccept
  rw [← h.size]
  exact (Array.getElem?_eq_some_iff.1 (of_rows?_eq_ok hrows)).1

theorem IsMark.push {log : ArrivalLog} {stop : Stop} {round : Nat} {onBoard : Bool} {mark : Mark}
    (h : IsMark log stop round onBoard mark) (a : Arrival) : IsMark (log.push a) stop round onBoard mark := by
  obtain ⟨b, hb, h⟩ := h
  exact ⟨b, ArrivalLog.get?_push hb, h⟩

/-- The rows of a stop after an arrival has been accepted. -/
theorem stops_accepted {a : Arrival} {stop : Nat} {rows : StopRows}
    (h : (s.accepted a).stops[stop]? = some rows) :
    ∃ old, s.stops[stop]? = some old ∧
      rows = if a.stop = stop then old.enter s.round a s.log.size else old := by
  simp only [accepted] at h
  rw [Array.getElem?_modify] at h
  split at h
  · rename_i heq
    obtain ⟨old, hold, rfl⟩ := Option.map_eq_some_iff.1 h
    exact ⟨old, hold, by rw [if_pos heq]⟩
  · rename_i hne
    exact ⟨rows, h, by rw [if_neg hne]⟩

/-- The mark of an arrival that has just been accepted. -/
theorem isMark_accepted {stop : Stop} {onBoard : Bool} {a : Arrival} (hstop : a.stop = stop)
    (hround : a.round = s.round) (honBoard : onBoard = true → a.onBoard = true) :
    IsMark (s.log.push a) stop s.round onBoard ⟨s.log.size, a.time⟩ :=
  ⟨a, ArrivalLog.get?_push_self, hstop, rfl, hround, honBoard⟩

theorem Good.accepted (h : Good n m s) {a : Arrival} (ha : a.stop < n) (hround : a.round = s.round)
    (htallies : Tallies a.rides a.round) : Good n m (s.accepted a) := by
  refine ⟨?_, h.round_le, ?_, ?_, ?_, ?_, ?_, ?_, ?_⟩
  · simp only [EarliestArrivals.accepted, Array.size_modify, h.size]
  · intro stop rows hrows
    obtain ⟨old, hold, rfl⟩ := stops_accepted hrows
    split
    · rw [StopRows.length_any_enter, h.any_length stop old hold]
    · exact h.any_length stop old hold
  · intro stop rows hrows
    obtain ⟨old, hold, rfl⟩ := stops_accepted hrows
    split
    · rw [StopRows.length_onBoard_enter, h.onBoard_length stop old hold]
    · exact h.onBoard_length stop old hold
  · intro stop rows hrows j mark hm
    obtain ⟨old, hold, rfl⟩ := stops_accepted hrows
    split at hm
    · rename_i hstop
      rcases StopRows.any_enter_cases hm with hm | ⟨rfl, rfl⟩
      · exact (h.any stop old hold j mark hm).push a
      · exact isMark_accepted hstop hround fun h => by cases h
    · exact (h.any stop old hold j mark hm).push a
  · intro stop rows hrows j mark hm
    obtain ⟨old, hold, rfl⟩ := stops_accepted hrows
    split at hm
    · rename_i hstop
      rcases StopRows.onBoard_enter_cases hm with hm | ⟨⟨rfl, rfl⟩, honBoard⟩
      · exact (h.onBoard stop old hold j mark hm).push a
      · exact isMark_accepted hstop hround fun _ => honBoard
    · exact (h.onBoard stop old hold j mark hm).push a
  · exact ArrivalLog.forall_push h.stop_lt ha
  · exact ArrivalLog.forall_push h.tallies htallies
  · exact RoundChanges.forall_onBoard_record h.onBoard_lt ha

/-! ## What is handed out -/

theorem boardable_beginRound {stop : Stop} {rows : StopRows} (h : s.stops[stop]? = some rows) :
    (s.beginRound (s.round + 1)).boardable stop = .ok (rows.boardable s.round) := by
  show ((s.beginRound (s.round + 1)).rows? stop).map _ = _
  rw [rows?_eq (s := s.beginRound (s.round + 1)) h]
  rfl

theorem transferable_eq {stop : Stop} {rows : StopRows} (hrows : s.stops[stop]? = some rows)
    (hstop : stop ∈ s.changes.onBoard) {mark : Option Mark} (hmark : rows.onBoard[s.round]? = some mark) :
    s.transferable stop = .ok (mark.map (·.id)).toList := by
  unfold transferable
  rw [rows?_eq hrows]
  show (if stop ∈ s.changes.onBoard then _ else _) = _
  rw [if_pos hstop, hmark]
  rfl

/-- Who boards has arrived at the stop in a round before this one. -/
theorem Good.arrival_of_boardable (h : Good n m s) {stop : Stop} {ids : List Nat} (hids : s.boardable stop = .ok ids)
    {id : Nat} (hid : id ∈ ids) : ∃ a, s.log.get? id = .ok a ∧ a.stop = stop ∧ a.round < s.round := by
  unfold boardable at hids
  cases hround : s.round with
  | zero =>
    rw [hround] at hids
    cases hids
    cases hid
  | succ previous =>
    rw [hround] at hids
    obtain ⟨rows, hrows, rfl⟩ := of_map_eq_ok hids
    obtain ⟨mark, hmark, rfl⟩ := StopRows.mem_boardable.1 hid
    obtain ⟨a, ha, hastop, _, haround⟩ := h.arrival_of_earliest (of_rows?_eq_ok hrows) hmark
    exact ⟨a, ha, hastop, Nat.lt_succ_of_le haround⟩

theorem Good.boardable_gives (h : Good n m s) {stop : Stop} (hstop : stop < n) :
    Gives (s.boardable stop) fun ids => ∀ id ∈ ids, ∃ a, s.log.get? id = .ok a ∧ a.stop = stop ∧
      Tallies (a.rides + 1) s.round := by
  obtain ⟨rows, hrows⟩ := h.rows hstop
  obtain ⟨ids, hids⟩ : ∃ ids, s.boardable stop = .ok ids := by
    unfold boardable
    cases s.round with
    | zero => exact ⟨_, rfl⟩
    | succ previous =>
      rw [rows?_eq hrows]
      exact ⟨_, rfl⟩
  refine ⟨ids, hids, fun id hid => ?_⟩
  obtain ⟨a, ha, hastop, hround⟩ := h.arrival_of_boardable hids hid
  -- The arrival is of a round before this one, so it leaves room for one ride more.
  have hrides := (h.tallies _ a ha).1
  exact ⟨a, ha, hastop, by omega, fun _ => Nat.succ_pos _⟩

/-- Who walks has arrived on board at the stop in this round. -/
theorem Good.arrival_of_transferable (h : Good n m s) {stop : Stop} {ids : List Nat}
    (hids : s.transferable stop = .ok ids) {id : Nat} (hid : id ∈ ids) :
    ∃ a, s.log.get? id = .ok a ∧ a.stop = stop ∧ a.onBoard = true ∧ a.round = s.round := by
  obtain ⟨rows, hrows, hids⟩ := of_bind_eq_ok hids
  have hrows := of_rows?_eq_ok hrows
  by_cases hchanged : stop ∈ s.changes.onBoard
  · have hrow := List.getElem?_eq_getElem (h.round_lt_onBoard hrows)
    rw [if_pos hchanged, hrow] at hids
    cases hids
    rw [Option.mem_toList] at hid
    obtain ⟨mark, hmark, rfl⟩ := Option.map_eq_some_iff.1 hid
    rw [hmark] at hrow
    obtain ⟨a, ha, hastop, _, haround, honBoard⟩ := h.onBoard stop rows hrows _ mark hrow
    exact ⟨a, ha, hastop, honBoard rfl, haround⟩
  · rw [if_neg hchanged] at hids
    cases hids
    cases hid

theorem Good.transferable_gives (h : Good n m s) {stop : Stop} (hstop : stop < n) :
    Gives (s.transferable stop) fun ids => ∀ id ∈ ids, ∃ a, s.log.get? id = .ok a ∧ a.stop = stop ∧
      a.onBoard = true ∧ Tallies a.rides s.round := by
  obtain ⟨rows, hrows⟩ := h.rows hstop
  obtain ⟨ids, hids⟩ : ∃ ids, s.transferable stop = .ok ids := by
    by_cases hchanged : stop ∈ s.changes.onBoard
    · exact ⟨_, transferable_eq hrows hchanged (List.getElem?_eq_getElem (h.round_lt_onBoard hrows))⟩
    · unfold transferable
      rw [rows?_eq hrows, ok_bind, if_neg hchanged]
      exact ⟨_, rfl⟩
  refine ⟨ids, hids, fun id hid => ?_⟩
  obtain ⟨a, ha, hastop, honBoard, hround⟩ := h.arrival_of_transferable hids hid
  exact ⟨a, ha, hastop, honBoard, hround ▸ h.tallies _ a ha⟩

/-- What is not earlier than those before it has one that is as good. -/
theorem Good.improves_gives (h : Good n m s) {a : Arrival} (ha : a.stop < n) (hround : a.round = s.round) :
    Gives (s.improves a) fun better =>
      better = false → s.log.Reaches False a.stop a.time a.cost a.round a.onBoard := by
  obtain ⟨rows, hrows⟩ := h.rows ha
  unfold improves
  rw [rows?_eq hrows]
  apply gives_ok
  intro hbetter
  obtain ⟨j, hj, mark, hmark, hle⟩ := StopRows.not_isEarlier hbetter
  have key : IsMark s.log a.stop j a.onBoard mark := by
    simp only [StopRows.rowsFor] at hmark
    cases honBoard : a.onBoard with
    | true =>
      rw [honBoard, if_pos rfl] at hmark
      exact h.onBoard _ rows hrows j mark hmark
    | false =>
      rw [honBoard, if_neg (by simp)] at hmark
      exact h.any _ rows hrows j mark hmark
  obtain ⟨b, hb, hbstop, hbtime, hbround, hbboard⟩ := key
  exact ⟨_, b, hb, hbstop, by rw [hbtime]; exact hle, False.elim, by omega, hbboard⟩

theorem improves_iff {a : Arrival} {rows : StopRows} (hrows : s.stops[a.stop]? = some rows) :
    s.improves a = .ok true ↔ StopRows.isEarlier (rows.rowsFor a.onBoard) s.round a.time = true := by
  unfold improves
  rw [rows?_eq hrows]
  show (Except.ok (rows.improves s.round a) : Except OutOfRange Bool) = .ok true ↔ _
  rw [Except.ok.injEq]
  rfl

section Handing

variable {a b : Arrival} {stop : Stop} {rows : StopRows}

/-- An early mark is handed out to board from in the next round. -/
theorem Good.hands_boardable (h : Good n m s) (hrows : s.stops[stop]? = some rows)
    (hmark : rows.HasBy s.round b.time) (hround : b.round = s.round) (ht : Tallies b.rides b.round) :
    s.log.Hands ((s.beginRound (s.round + 1)).boardable stop) fun c =>
      c.time ≤ b.time ∧ (0 < c.rides → 0 < b.rides) ∧ (False → c.cost ≤ b.cost) := by
  obtain ⟨mark, hmark, hle⟩ := hmark
  obtain ⟨c, hc, _, hctime, hcround⟩ := h.arrival_of_earliest hrows hmark
  rw [boardable_beginRound hrows]
  refine ⟨_, rfl, mark.id, StopRows.mem_boardable.2 ⟨mark, hmark, rfl⟩, c, hc, by rw [hctime]; exact hle, ?_, False.elim⟩
  -- Only in round 0 is there an arrival without rides, and then no other one has any.
  have hc' := (h.tallies _ c hc).1
  have hb' := ht.2
  omega

/-- What is handed out to board from in the next round has an early mark. -/
theorem Good.hasBy_of_hands (h : Good n m s) (hrows : s.stops[stop]? = some rows) {P : Arrival → Prop}
    (hands : s.log.Hands ((s.beginRound (s.round + 1)).boardable stop) fun c => c.time ≤ b.time ∧ P c) :
    rows.HasBy s.round b.time := by
  obtain ⟨ids, hids, id, hid, c, hc, hle, _⟩ := hands
  rw [boardable_beginRound hrows] at hids
  obtain rfl := Except.ok.inj hids
  obtain ⟨mark, hmark, rfl⟩ := StopRows.mem_boardable.1 hid
  obtain ⟨c', hc', _, htime, _⟩ := h.arrival_of_earliest hrows hmark
  rw [ArrivalLog.get?_inj hc hc', htime] at hle
  exact ⟨mark, hmark, hle⟩

/-- The mark of the round is handed out to walk on from. -/
theorem Good.hands_transferable (h : Good n m s) (hrows : s.stops[stop]? = some rows)
    (hchanged : stop ∈ s.changes.onBoard) (hmark : rows.OnBoardBy s.round b.time) :
    s.log.Hands (s.transferable stop) fun c => c.time ≤ b.time ∧ (False → c.cost ≤ b.cost) := by
  obtain ⟨mark, hmark, hle⟩ := hmark
  obtain ⟨c, hc, _, htime, _⟩ := h.onBoard _ rows hrows _ mark hmark
  refine ⟨_, transferable_eq hrows hchanged hmark, mark.id, List.mem_singleton_self _, c, hc, ?_, False.elim⟩
  rw [← htime] at hle
  exact hle

/-- What is handed out to walk on from has the mark of the round. -/
theorem Good.onBoardBy_of_hands (h : Good n m s) (hrows : s.stops[stop]? = some rows)
    (hchanged : stop ∈ s.changes.onBoard) {P : Arrival → Prop}
    (hands : s.log.Hands (s.transferable stop) fun c => c.time ≤ b.time ∧ P c) : rows.OnBoardBy s.round b.time := by
  have hrow := List.getElem?_eq_getElem (h.round_lt_onBoard hrows)
  obtain ⟨ids, hids, id, hid, c, hc, hle, -⟩ := hands
  rw [transferable_eq hrows hchanged hrow] at hids
  obtain rfl := Except.ok.inj hids
  obtain ⟨mark, hmark, rfl⟩ := Option.map_eq_some_iff.1 (Option.mem_toList.1 hid)
  rw [hmark] at hrow
  obtain ⟨c', hc', _, htime, _⟩ := h.onBoard _ rows hrows _ mark hrow
  rw [ArrivalLog.get?_inj hc hc', htime] at hle
  exact ⟨mark, hrow, hle⟩

/-! ## Nothing is lost -/

/-- After an arrival has been accepted, each of the round still has a mark by its time. -/
theorem Good.hasBy_accepted (h : Good n m s) (hbetter : s.improves a = .ok true) {first : Nat}
    (hkeeps : ArrivalStore.Keeps False s first) {id : Nat} (hid : first ≤ id) (hb : (s.log.push a).get? id = .ok b)
    (hrows : (s.accepted a).stops[b.stop]? = some rows) : rows.HasBy s.round b.time := by
  obtain ⟨old, hold, rfl⟩ := stops_accepted hrows
  rcases ArrivalLog.get?_push_cases hb with hb | ⟨_, rfl⟩
  · have hby := h.hasBy_of_hands hold (hkeeps.boards id b hid hb)
    split
    · rename_i hstop
      exact hby.enter ((improves_iff (hstop ▸ hold)).1 hbetter)
    · exact hby
  · rw [if_pos rfl]
    exact StopRows.hasBy_enter (h.round_lt_any hold)

/-- So has each on board in the row of the round. -/
theorem Good.onBoardBy_accepted (h : Good n m s) (hbetter : s.improves a = .ok true) {first : Nat}
    (hkeeps : ArrivalStore.Keeps False s first) {id : Nat} (hid : first ≤ id) (hb : (s.log.push a).get? id = .ok b)
    (honBoard : b.onBoard = true) (hrows : (s.accepted a).stops[b.stop]? = some rows) :
    rows.OnBoardBy s.round b.time := by
  obtain ⟨old, hold, rfl⟩ := stops_accepted hrows
  rcases ArrivalLog.get?_push_cases hb with hb | ⟨_, rfl⟩
  · obtain ⟨hchanged, hands⟩ := hkeeps.walks id b hid hb honBoard
    have hby := h.onBoardBy_of_hands hold hchanged hands
    split
    · rename_i hstop
      exact hby.enter ((improves_iff (hstop ▸ hold)).1 hbetter)
    · exact hby
  · rw [if_pos rfl]
    exact StopRows.onBoardBy_enter (h.round_lt_onBoard hold) honBoard

/-- The arrivals of the round keep their turn when another one is accepted. -/
theorem Good.keeps_accepted (h : Good n m s) (ha : a.stop < n) (hround : a.round = s.round)
    (htallies : Tallies a.rides a.round) (hbetter : s.improves a = .ok true) {first : Nat}
    (hkeeps : ArrivalStore.Keeps False s first) : ArrivalStore.Keeps False (s.accepted a) first := by
  have h' := h.accepted ha hround htallies
  refine hkeeps.push (t := s.accepted a) rfl rfl rfl hround ?_ ?_
  · intro id b hid hb hbround
    obtain ⟨rows, hrows⟩ := h'.rows (h'.stop_lt id b hb)
    have hby := h.hasBy_accepted hbetter hkeeps hid hb hrows
    exact h'.hands_boardable hrows hby hbround (h'.tallies id b hb)
  · intro id b hid hb honBoard hchanged
    obtain ⟨rows, hrows⟩ := h'.rows (h'.stop_lt id b hb)
    have hby := h.onBoardBy_accepted hbetter hkeeps hid hb honBoard hrows
    exact h'.hands_transferable hrows hchanged hby

end Handing

/-- Nothing that is accepted in a round changes what the round may board from. -/
theorem boardable_accepted (a : Arrival) (stop : Stop) : (s.accepted a).boardable stop = s.boardable stop := by
  have hround : (s.accepted a).round = s.round := rfl
  unfold boardable
  rw [hround]
  cases hk : s.round with
  | zero => rfl
  | succ previous =>
    simp only [rows?, accepted]
    rw [Array.getElem?_modify, hk]
    by_cases hstop : a.stop = stop
    · rw [if_pos hstop]
      cases s.stops[stop]? with
      | none => rfl
      | some rows => exact congrArg Except.ok (StopRows.boardable_enter (Nat.lt_succ_self previous))
    · rw [if_neg hstop]

end EarliestArrivals

open EarliestArrivals in
instance : LawfulStore EarliestArrivals where
  Good := Good
  Heeds := False
  Tallies := Tallies
  tallies_self k := ⟨Nat.le_refl k, fun h => h⟩
  rides_le h := h.1
  reject_eq _ _ := rfl
  log_beginIteration _ _ := rfl
  log_beginRound _ _ := rfl
  round_beginRound _ _ := rfl
  previous_beginRound _ _ := rfl
  truncations_beginIteration _ _ := rfl
  truncations_beginRound _ _ := rfl
  good_beginIteration h _ := h.beginIteration
  good_beginRound h _ hk := h.beginRound hk
  good_tallies h := h.tallies
  onBoard_lt h := h.onBoard_lt
  boardable_gives h _ hstop := h.boardable_gives hstop
  transferable_gives h _ hstop := h.transferable_gives hstop
  improves_gives h ha hround _ := h.improves_gives ha hround
  accept_gives := by
    intro n m s a h ha hround htallies hbetter
    refine ⟨_, accept_eq h ha, rfl, h.accepted ha hround htallies, rfl, rfl, rfl, Nat.le_refl _, ?_, ?_⟩
    · exact fun _ => boardable_accepted a
    · exact fun _ first _ hkeeps => h.keeps_accepted ha hround htallies hbetter hkeeps
  outrides_le h := of_decide_eq_true h

end JourneyPlanner
