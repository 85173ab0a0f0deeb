import JourneyPlanner.Proofs.Acceptances
import JourneyPlanner.Proofs.EarliestHistory
import JourneyPlanner.Proofs.FrontierHistory
/-!
# What a store tells of a round

In the course of a search both stores list the stops that have changed in the current round and in the one
before, and hand out arrivals of these rounds only, whatever they keep of earlier ones. The entries of a
frontier are some of the acceptances at its stop, in their order, and their stamps tell iterations and
rounds apart. A row for arrivals on board may have a mark of an earlier iteration, but once the current
round has changed the stop on board it has the last acceptance of this round, which is the earliest.
-/
namespace JourneyPlanner

open ArrivalStore Acceptance

/-- A list that is left of one without repeated keys has what has one of its keys. -/
theorem eq_filter_of_sublist {α : Type} {key : α → Nat} {xs ys : List α} (h : xs.Sublist ys)
    (hkeys : (ys.map key).Nodup) : xs = ys.filter fun y => key y ∈ xs.map key := by
  induction h with
  | slnil => rfl
  | @cons xs ys y hsub ih =>
    rw [List.map_cons, List.nodup_cons] at hkeys
    have hnot : key y ∉ xs.map key := fun hmem => hkeys.1 ((hsub.map key).subset hmem)
    rw [List.filter_cons_of_neg (by simpa using hnot)]
    exact ih hkeys.2
  | @cons_cons xs ys y hsub ih =>
    rw [List.map_cons, List.nodup_cons] at hkeys
    rw [List.filter_cons_of_pos (by simp)]
    refine congrArg (y :: ·) ((ih hkeys.2).trans (List.filter_congr fun z hz => decide_eq_decide.2 ?_))
    have hne : key z ≠ key y := fun heq => hkeys.1 (heq ▸ List.mem_map_of_mem hz)
    rw [List.map_cons, List.mem_cons, or_iff_right hne]

/-! ## Frontiers -/

/-- The entry of an acceptance. -/
def Acceptance.entry (x : Acceptance) : FrontierEntry := .ofArrival x.arrival x.id (roundStamp x.iteration x.round)

namespace ArrivalFrontiers

/-- Stamps tell the rounds of a search apart. -/
theorem roundStamp_inj {i j k l : Nat} (hi : i < 16777216) (hj : j < 16777216) (hk : k < 256) (hl : l < 256) :
    roundStamp i k = roundStamp j l ↔ i = j ∧ k = l := by
  unfold roundStamp
  omega

/-- A new entry comes last, and others may go. -/
theorem enter_sublist (capacity : Nat) (f : Frontier FrontierEntry) (e : FrontierEntry) :
    (enter capacity f e).items.Sublist (f.items ++ [e]) := by
  have hinsert : (f.insert e).items.Sublist (f.items ++ [e]) := by
    rw [Frontier.items_insert]
    exact insertUndominated_sublist (List.Sublist.refl _)
  simp only [enter, Frontier.dropGreatest]
  split
  · split
    · exact hinsert
    · exact (List.eraseIdx_sublist _ _).trans hinsert
  · exact hinsert

/-- What the store tells of the current round and the one before. Those entries of a stop's frontier that are left of
a round are handed out in the order in which they have been accepted. -/
structure TellsRounds (n : Nat) (w : Noted ArrivalFrontiers) : Prop where
  changes : (changes w.store).Lists w.iteration w.round w.accepted
  frontier : ∀ stop < n, ∃ f, w.store.frontier? stop = .ok f ∧
    (f.items.map (·.id)).Sublist ((w.accepted.filter fun x => x.arrival.stop = stop).map (·.id)) ∧
    boardable w.store stop = .ok ((w.accepted.filter fun x => x.arrival.stop = stop ∧
      (x.iteration = w.iteration ∧ x.round + 1 = w.round) ∧ x.id ∈ f.items.map (·.id)).map (·.id)) ∧
    transferable w.store stop = .ok ((w.accepted.filter fun x => x.arrival.stop = stop ∧
      (x.iteration = w.iteration ∧ x.round = w.round ∧ x.arrival.onBoard = true) ∧
        x.id ∈ f.items.map (·.id)).map (·.id))

/-- In the course of a search the entries at a stop are those of some of the acceptances there, in their order. -/
structure Books (n : Nat) (w : Noted ArrivalFrontiers) : Prop where
  booked : w.Booked 251
  iteration : w.store.iteration = w.iteration
  round : w.store.round = w.round
  size : w.store.frontiers.size = n
  entries : ∀ (stop : Nat) (f : Frontier FrontierEntry), w.store.frontiers[stop]? = some f →
    f.items.Sublist ((w.accepted.filter fun x => x.arrival.stop = stop).map Acceptance.entry)

variable {n : Nat} {w : Noted ArrivalFrontiers} {a : Arrival} {f : Frontier FrontierEntry} {stop : Stop}

theorem books_start (n capacity : Nat) : Books n ⟨(init n capacity).beginIteration 0, 0, 0, []⟩ where
  booked := Noted.booked_start rfl rfl
  iteration := rfl
  round := rfl
  size := by simp [init, beginIteration]
  entries stop f hf := by
    obtain ⟨_, rfl⟩ := Array.getElem?_eq_some_iff.1 hf
    simp [init, beginIteration, Frontier.empty]

/-- An accepted arrival gets an entry at its stop. -/
theorem Books.accept (h : Books n w) (f : Frontier FrontierEntry) :
    Books n ⟨w.store.accepted a f, w.iteration, w.round,
      w.accepted ++ [⟨w.iteration, w.round, w.store.log.size, a⟩]⟩ where
  booked := h.booked.accept rfl rfl
  iteration := h.iteration
  round := h.round
  size := by simp only [accepted, Array.size_modify, h.size]
  entries stop g hg := by
    obtain ⟨old, hold, rfl⟩ := frontiers_accepted hg
    have hentries := h.entries stop old hold
    rw [List.filter_append, List.map_append]
    by_cases hstop : a.stop = stop
    · have hentry : w.store.entry a w.store.log.size = Acceptance.entry ⟨w.iteration, w.round, w.store.log.size, a⟩ := by
        rw [entry, h.iteration, h.round]
        rfl
      rw [if_pos hstop, List.filter_cons_of_pos (by simpa using hstop), List.filter_nil, List.map_singleton, hentry]
      exact (enter_sublist _ _ _).trans (hentries.append (List.Sublist.refl _))
    · rw [if_neg hstop]
      exact hentries.trans (List.sublist_append_left _ _)

theorem Books.offer (h : Books n w) (hstop : a.stop < n) : ∃ r, ArrivalStore.offer w.store a = .ok r ∧
    Books n ⟨r.1, w.iteration, w.round,
      w.accepted ++ (r.2.map fun id => ⟨w.iteration, w.round, id, a⟩).toList⟩ := by
  rw [← h.size] at hstop
  have hf := Array.getElem?_eq_getElem hstop
  refine ⟨_, offer_eq hf, ?_⟩
  split
  · exact h.accept _
  · rw [Option.map_none, Option.toList_none, List.append_nil]
    exact h

/-- The calls of a search keep the books. -/
theorem books_of_search {limit capacity i : Nat} {k : Option Nat} {calls : List StoreCall} (hlimit : limit ≤ 251)
    (h : SearchOrder n limit calls i k) : ∃ w, Noted.performAll (init n capacity) calls = .ok w ∧ Books n w ∧
      w.iteration = i ∧ w.round = k.getD 0 := by
  refine Noted.performAll_gives h (books_start n capacity) ?_ ?_ ?_ fun w a hw hstop => hw.offer hstop
  · exact fun w hw hi => ⟨hw.booked.iteration hi rfl rfl, rfl, rfl, hw.size, hw.entries⟩
  · exact fun w hw hzero => ⟨hw.booked.firstRound hzero rfl rfl, hw.iteration, rfl, hw.size, hw.entries⟩
  · exact fun w hw hk => ⟨hw.booked.round (Nat.le_trans hk hlimit) rfl rfl, hw.iteration, rfl, hw.size, hw.entries⟩

/-! ## What the frontiers tell -/

/-- The entries that a test finds are those acceptances that are left at the stop and pass it. -/
theorem Books.filter_entries (h : Books n w) (hf : w.store.frontiers[stop]? = some f) {test : FrontierEntry → Bool}
    {P : Acceptance → Prop} [DecidablePred P] (htest : ∀ x ∈ w.accepted, test x.entry = true ↔ P x) :
    (f.items.filter test).map (·.id) = (w.accepted.filter fun x =>
      x.arrival.stop = stop ∧ P x ∧ x.id ∈ f.items.map (·.id)).map (·.id) := by
  obtain ⟨kept, hkept, hitems⟩ := List.sublist_map_iff.1 (h.entries stop f hf)
  have hids : f.items.map (·.id) = kept.map (·.id) := by
    rw [hitems, List.map_map]
    rfl
  have hnodup : ((w.accepted.filter fun x => x.arrival.stop = stop).map (·.id)).Nodup :=
    h.booked.nodup_ids.sublist (List.filter_sublist.map _)
  have hfilter := eq_filter_of_sublist hkept hnodup
  rw [← hids] at hfilter
  generalize f.items.map (·.id) = left at hfilter
  rw [hitems, hfilter, List.filter_map, List.map_map, List.filter_filter, List.filter_filter]
  refine congrArg (List.map _) (List.filter_congr fun x hx => ?_)
  have hiff := htest x hx
  by_cases hP : P x
  · simp [hP, hiff.2 hP, Bool.and_comm]
  · simp [hP, Bool.eq_false_iff.2 fun ht => hP (hiff.1 ht)]

theorem Books.stamp_iff (h : Books n w) {k : Nat} (hk : k ≤ 251) {x : Acceptance} (hx : x ∈ w.accepted) :
    (x.entry.stamp == roundStamp w.store.iteration k) = true ↔ x.iteration = w.iteration ∧ x.round = k := by
  obtain ⟨hround, hdate⟩ := h.booked.upTo x hx
  have hlt := h.booked.iteration_lt
  rw [beq_iff_eq, h.iteration]
  exact roundStamp_inj (by omega) hlt (by omega) (by omega)

theorem Books.boardable_eq (h : Books n w) (hf : w.store.frontiers[stop]? = some f) :
    boardable w.store stop = .ok ((w.accepted.filter fun x => x.arrival.stop = stop ∧
      (x.iteration = w.iteration ∧ x.round + 1 = w.round) ∧ x.id ∈ f.items.map (·.id)).map (·.id)) := by
  have hle := h.booked.round_le
  have hround := h.round
  show w.store.boardable stop = _
  unfold ArrivalFrontiers.boardable
  cases hk : w.store.round with
  | zero =>
    rw [hk] at hround
    rw [List.filter_eq_nil_iff.2 fun x _ => by simp [← hround]]
    rfl
  | succ k =>
    rw [hk] at hround
    simp only [frontier?_eq hf]
    refine congrArg Except.ok (h.filter_entries hf fun x hx => ?_)
    rw [h.stamp_iff (by omega) hx, ← hround, Nat.add_right_cancel_iff]

theorem Books.transferable_eq (h : Books n w) (hf : w.store.frontiers[stop]? = some f) :
    transferable w.store stop = .ok ((w.accepted.filter fun x => x.arrival.stop = stop ∧
      (x.iteration = w.iteration ∧ x.round = w.round ∧ x.arrival.onBoard = true) ∧
        x.id ∈ f.items.map (·.id)).map (·.id)) := by
  refine (ArrivalFrontiers.transferable_eq hf).trans (congrArg Except.ok (h.filter_entries hf fun x hx => ?_))
  rw [Bool.and_eq_true, h.round, h.stamp_iff h.booked.round_le hx, and_assoc]
  rfl

theorem Books.tellsRounds (h : Books n w) : TellsRounds n w where
  changes := h.booked.lists
  frontier stop hstop := by
    have hf := Array.getElem?_eq_getElem (show stop < w.store.frontiers.size from h.size ▸ hstop)
    refine ⟨_, frontier?_eq hf, ?_, h.boardable_eq hf, h.transferable_eq hf⟩
    have hsub := (h.entries stop _ hf).map (·.id)
    rwa [List.map_map] at hsub

end ArrivalFrontiers

/-! ## Rows -/

/-- Those of some acceptances that were made on board at a stop. -/
def Acceptance.onBoardAt (stop : Stop) (as : List Acceptance) : List Acceptance :=
  as.filter fun x => x.arrival.onBoard = true ∧ x.arrival.stop = stop

/-- Each acceptance is of an earlier arrival than those before it. -/
def Acceptance.Falls (as : List Acceptance) : Prop := as.Pairwise fun x y => y.arrival.time < x.arrival.time

theorem Acceptance.Falls.last_lt {as : List Acceptance} {x : Acceptance} (h : Falls as) (hlast : as.getLast? = some x) :
    ∀ y ∈ as, y = x ∨ x.arrival.time < y.arrival.time := by
  obtain ⟨before, rfl⟩ := List.getLast?_eq_some_iff.1 hlast
  obtain ⟨-, -, hbefore⟩ := List.pairwise_append.1 h
  intro y hy
  rcases List.mem_append.1 hy with hy | hy
  · exact .inr (hbefore y hy x (by simp))
  · exact .inl (List.mem_singleton.1 hy)

namespace EarliestArrivals

/-- What the store tells of the current round and the one before. Of the arrivals on board that it has accepted at a
stop in the current round it hands out the earliest. -/
structure TellsRounds (n : Nat) (w : Noted EarliestArrivals) : Prop where
  changes : (changes w.store).Lists w.iteration w.round w.accepted
  none_onBoard : ∀ stop < n, onBoardAt stop (ofRound w.iteration w.round w.accepted) = [] →
    transferable w.store stop = .ok []
  earliest : ∀ stop < n, onBoardAt stop (ofRound w.iteration w.round w.accepted) ≠ [] →
    ∃ x ∈ onBoardAt stop (ofRound w.iteration w.round w.accepted), transferable w.store stop = .ok [x.id] ∧
      ∀ y ∈ onBoardAt stop (ofRound w.iteration w.round w.accepted), y = x ∨ x.arrival.time < y.arrival.time

/-- The store has two rows for each of `n` stops, with room for the rounds up to `m`. In the course of a search, what
it accepts on board at a stop in the current round falls, and the last of it has the mark of the round. -/
structure Books (n m : Nat) (w : Noted EarliestArrivals) : Prop where
  booked : w.Booked (min 251 m)
  round : w.store.round = w.round
  size : w.store.stops.size = n
  length : ∀ (stop : Nat) (rows : StopRows), w.store.stops[stop]? = some rows →
    ∀ onBoard, (rows.rowsFor onBoard).length = m + 1
  falls : ∀ stop, Falls (onBoardAt stop (ofRound w.iteration w.round w.accepted))
  last : ∀ (stop : Nat) (rows : StopRows), w.store.stops[stop]? = some rows →
    ∀ x, (onBoardAt stop (ofRound w.iteration w.round w.accepted)).getLast? = some x →
      rows.onBoard[w.round]? = some (some ⟨x.id, x.arrival.time⟩)

variable {n m : Nat} {w : Noted EarliestArrivals} {s : EarliestArrivals} {a : Arrival} {rows : StopRows} {stop : Stop}

/-- When nothing has been accepted in a round yet, nothing is asked of its marks. -/
theorem books_of_new {i k : Nat} {as : List Acceptance} (hbooked : Noted.Booked (min 251 m) ⟨s, i, k, as⟩)
    (hnew : ofRound i k as = []) (hround : s.round = k) (hsize : s.stops.size = n)
    (hlength : ∀ (stop : Nat) (rows : StopRows), s.stops[stop]? = some rows →
      ∀ onBoard, (rows.rowsFor onBoard).length = m + 1) : Books n m ⟨s, i, k, as⟩ where
  booked := hbooked
  round := hround
  size := hsize
  length := hlength
  falls stop := by
    show Falls (onBoardAt stop (ofRound i k as))
    rw [hnew]
    exact .nil
  last stop rows _ x hx := by
    change (onBoardAt stop (ofRound i k as)).getLast? = some x at hx
    rw [hnew] at hx
    cases hx

theorem books_start (n m : Nat) : Books n m ⟨(init n m).beginIteration, 0, 0, []⟩ :=
  books_of_new (Noted.booked_start rfl rfl) rfl rfl (recalls_init n m).size (recalls_init n m).length

theorem Books.round_lt (h : Books n m w) (hrows : w.store.stops[stop]? = some rows) (onBoard : Bool) :
    w.round < (rows.rowsFor onBoard).length := by
  have hle := h.booked.round_le
  rw [h.length stop rows hrows]
  omega

/-- The new acceptance comes last, if it is on board at the stop. -/
theorem onBoardAt_concat (w : Noted EarliestArrivals) (stop : Stop) (id : Nat) (a : Arrival) :
    onBoardAt stop (ofRound w.iteration w.round (w.accepted ++ [⟨w.iteration, w.round, id, a⟩])) =
      onBoardAt stop (ofRound w.iteration w.round w.accepted) ++
        if a.onBoard = true ∧ a.stop = stop then [⟨w.iteration, w.round, id, a⟩] else [] := by
  rw [ofRound_concat, onBoardAt, List.filter_append]
  split
  · rename_i hnew
    rw [List.filter_cons_of_pos (by simpa using hnew)]
    rfl
  · rename_i hnot
    rw [List.filter_cons_of_neg (by simpa using hnot)]
    rfl

/-- An arrival on board that is accepted is earlier than those that have been in this round. -/
theorem Books.lt_of_improves (h : Books n m w) (hrows : w.store.stops[a.stop]? = some rows) (honBoard : a.onBoard = true)
    (hbetter : rows.improves w.store.round a = true) :
    ∀ y ∈ onBoardAt a.stop (ofRound w.iteration w.round w.accepted), a.time < y.arrival.time := by
  intro y hy
  rw [StopRows.improves, honBoard, h.round] at hbetter
  obtain ⟨x, hx⟩ := Option.ne_none_iff_exists'.1 fun hnone => List.ne_nil_of_mem hy (List.getLast?_eq_none_iff.1 hnone)
  have hlt := StopRows.isEarlier_lt hbetter (Nat.le_refl _) (h.last a.stop rows hrows x hx)
  rcases (h.falls a.stop).last_lt hx y hy with rfl | hlt'
  · exact hlt
  · exact Time.not_le.1 fun hle => Time.not_le.2 hlt (Time.le_trans (Time.le_of_lt hlt') hle)

theorem Books.accept (h : Books n m w) (hrows : w.store.stops[a.stop]? = some rows)
    (hbetter : rows.improves w.store.round a = true) : Books n m ⟨w.store.accepted a, w.iteration, w.round,
      w.accepted ++ [⟨w.iteration, w.round, w.store.log.size, a⟩]⟩ where
  booked := h.booked.accept rfl rfl
  round := h.round
  size := by simp only [accepted, Array.size_modify, h.size]
  length stop rows' hrows' onBoard := by
    obtain ⟨old, hold, rfl⟩ := stops_accepted hrows'
    have hold' := h.length stop old hold onBoard
    split
    · cases onBoard with
      | false => exact StopRows.length_any_enter.trans hold'
      | true => exact StopRows.length_onBoard_enter.trans hold'
    · exact hold'
  falls stop := by
    show Falls (onBoardAt stop (ofRound w.iteration w.round (w.accepted ++ [_])))
    rw [onBoardAt_concat]
    split
    · rename_i hnew
      obtain ⟨honBoard, rfl⟩ := hnew
      refine List.pairwise_append.2 ⟨h.falls _, List.pairwise_singleton _ _, fun y hy x hx => ?_⟩
      rw [List.mem_singleton.1 hx]
      exact h.lt_of_improves hrows honBoard hbetter y hy
    · rw [List.append_nil]
      exact h.falls stop
  last stop rows' hrows' x hx := by
    obtain ⟨old, hold, rfl⟩ := stops_accepted hrows'
    change (onBoardAt stop (ofRound w.iteration w.round (w.accepted ++ [_]))).getLast? = some x at hx
    rw [onBoardAt_concat] at hx
    show (if a.stop = stop then _ else old).onBoard[w.round]? = _
    by_cases hnew : a.onBoard = true ∧ a.stop = stop
    · rw [if_pos hnew, List.getLast?_concat] at hx
      obtain rfl := Option.some.inj hx
      rw [if_pos hnew.2, StopRows.enter, if_pos hnew.1, h.round]
      exact List.getElem?_set_self (h.round_lt hold true)
    · rw [if_neg hnew, List.append_nil] at hx
      have hmark := h.last stop old hold x hx
      split
      · rename_i hstop
        rw [StopRows.enter, if_neg fun honBoard => hnew ⟨honBoard, hstop⟩]
        exact hmark
      · exact hmark

theorem Books.offer (h : Books n m w) (hstop : a.stop < n) : ∃ r, ArrivalStore.offer w.store a = .ok r ∧
    Books n m ⟨r.1, w.iteration, w.round,
      w.accepted ++ (r.2.map fun id => ⟨w.iteration, w.round, id, a⟩).toList⟩ := by
  rw [← h.size] at hstop
  have hrows := Array.getElem?_eq_getElem hstop
  have hround : w.store.round < (w.store.stops[a.stop]).rounds := h.round ▸ h.round_lt hrows false
  refine ⟨_, offer_eq hrows hround, ?_⟩
  split
  · rename_i hbetter
    exact h.accept hrows hbetter
  · rw [Option.map_none, Option.toList_none, List.append_nil]
    exact h

/-- The calls of a search keep the books. -/
theorem books_of_search {i : Nat} {k : Option Nat} {calls : List StoreCall}
    (h : SearchOrder n (min 251 m) calls i k) : ∃ w, Noted.performAll (init n m) calls = .ok w ∧ Books n m w ∧
      w.iteration = i ∧ w.round = k.getD 0 := by
  refine Noted.performAll_gives h (books_start n m) ?_ ?_ ?_ fun w a hw hstop => hw.offer hstop
  · intro w hw hi
    have hnew : ofRound (w.iteration + 1) 0 w.accepted = [] := hw.booked.upTo.ofRound_eq_nil (.inl (Nat.lt_succ_self _))
    exact books_of_new (hw.booked.iteration hi rfl rfl) hnew rfl hw.size hw.length
  · intro w hw hzero
    obtain ⟨s, i, k, as⟩ := w
    obtain rfl : k = 0 := hzero
    exact ⟨hw.booked.firstRound rfl rfl rfl, rfl, hw.size, hw.length, hw.falls, hw.last⟩
  · intro w hw hk
    have hnew : ofRound w.iteration (w.round + 1) w.accepted = [] :=
      hw.booked.upTo.ofRound_eq_nil (.inr ⟨rfl, Nat.lt_succ_self _⟩)
    exact books_of_new (hw.booked.round hk rfl rfl) hnew rfl hw.size hw.length

/-! ## What the rows tell -/

theorem Books.mem_onBoard_iff (h : Books n m w) : stop ∈ w.store.changes.onBoard ↔
    onBoardAt stop (ofRound w.iteration w.round w.accepted) ≠ [] := by
  have hmem : ∀ x, x ∈ onBoardAt stop (ofRound w.iteration w.round w.accepted) ↔
      x ∈ (ofRound w.iteration w.round w.accepted).filter (·.arrival.onBoard) ∧ x.arrival.stop = stop := by
    simp [onBoardAt, and_assoc]
  rw [show w.store.changes.onBoard = _ from h.booked.lists.onBoard, mem_stops]
  constructor
  · rintro ⟨x, hx⟩
    exact List.ne_nil_of_mem ((hmem x).2 hx)
  · intro hsome
    obtain ⟨x, hx⟩ := List.exists_mem_of_ne_nil _ hsome
    exact ⟨x, (hmem x).1 hx⟩

theorem Books.tellsRounds (h : Books n m w) : TellsRounds n w where
  changes := h.booked.lists
  none_onBoard stop hstop hnone := by
    have hrows := Array.getElem?_eq_getElem (show stop < w.store.stops.size from h.size ▸ hstop)
    show w.store.transferable stop = _
    unfold EarliestArrivals.transferable
    rw [rows?_eq hrows, ok_bind, if_neg fun hmem => h.mem_onBoard_iff.1 hmem hnone]
    rfl
  earliest stop hstop hsome := by
    have hrows := Array.getElem?_eq_getElem (show stop < w.store.stops.size from h.size ▸ hstop)
    obtain ⟨x, hx⟩ := Option.ne_none_iff_exists'.1 fun hnone => hsome (List.getLast?_eq_none_iff.1 hnone)
    refine ⟨x, List.mem_of_getLast? hx, ?_, (h.falls stop).last_lt hx⟩
    have hmark := h.last stop _ hrows x hx
    rw [← h.round] at hmark
    show w.store.transferable stop = _
    unfold EarliestArrivals.transferable
    rw [rows?_eq hrows, ok_bind, if_pos (h.mem_onBoard_iff.2 hsome), hmark]
    rfl

end EarliestArrivals

/-- In the course of a search, whatever is offered, both stores list the stops that have changed in the current round
and in the one before, and hand out what they have kept of just these rounds. -/
theorem Noted.performAll_tells (n : Nat) :
    (∀ m i k calls, SearchOrder n (min 251 m) calls i k →
      ∃ w, performAll (EarliestArrivals.init n m) calls = .ok w ∧ w.iteration = i ∧ w.round = k.getD 0 ∧
        w.Booked (min 251 m) ∧ EarliestArrivals.TellsRounds n w) ∧
    (∀ capacity i k calls, SearchOrder n 251 calls i k →
      ∃ w, performAll (ArrivalFrontiers.init n capacity) calls = .ok w ∧ w.iteration = i ∧ w.round = k.getD 0 ∧
        w.Booked 251 ∧ ArrivalFrontiers.TellsRounds n w) := by
  constructor
  · intro m i k calls h
    obtain ⟨w, hw, hbooks, hi, hk⟩ := EarliestArrivals.books_of_search h
    exact ⟨w, hw, hi, hk, hbooks.booked, hbooks.tellsRounds⟩
  · intro capacity i k calls h
    obtain ⟨w, hw, hbooks, hi, hk⟩ := ArrivalFrontiers.books_of_search (Nat.le_refl _) h
    exact ⟨w, hw, hi, hk, hbooks.booked, hbooks.tellsRounds⟩

/-- A ride that arrives at 9 in the first iteration, and in the second one a ride at 7 and a walk at 6. -/
def twoIterations : List StoreCall :=
  [.beginIteration 0, .beginRound 0, .beginRound 1,
    .offer ⟨none, 0, .ofSecs 9, 1, 5, 1, .ride 0 (.scheduled 1) 0 1 (.ofSecs 5)⟩,
    .beginIteration 1, .beginRound 0, .beginRound 1,
    .offer ⟨none, 0, .ofSecs 7, 1, 5, 1, .ride 0 (.scheduled 0) 0 1 (.ofSecs 4)⟩,
    .offer ⟨some 1, 0, .ofSecs 6, 1, 6, 1, .transfer 1 0⟩]

theorem searchOrder_twoIterations {limit : Nat} (h : 1 ≤ limit) : SearchOrder 1 limit twoIterations 1 (some 1) := by
  have hfirst : SearchOrder 1 limit [.beginIteration 0] 0 none := .start
  have hride := (hfirst.firstRound.nextRound h).offer (a := ⟨none, 0, .ofSecs 9, 1, 5, 1,
    .ride 0 (.scheduled 1) 0 1 (.ofSecs 5)⟩) (by decide)
  have hsecond := ((hride.iteration (by decide)).firstRound.nextRound h).offer (a := ⟨none, 0, .ofSecs 7, 1, 5, 1,
    .ride 0 (.scheduled 0) 0 1 (.ofSecs 4)⟩) (by decide)
  exact hsecond.offer (by decide)

/-- Nothing of the first iteration is handed out in the second, where one goes on from the ride only. -/
theorem Noted.twoIterations_tells :
    (SearchOrder 1 (min 251 2) twoIterations 1 (some 1) ∧
      ∃ w, performAll (EarliestArrivals.init 1 2) twoIterations = .ok w ∧ EarliestArrivals.TellsRounds 1 w ∧
        (ofRound w.iteration w.round w.accepted).map (·.id) = [1, 2] ∧ transferable w.store 0 = .ok [1]) ∧
    (SearchOrder 1 251 twoIterations 1 (some 1) ∧
      ∃ w, performAll (ArrivalFrontiers.init 1 5) twoIterations = .ok w ∧ ArrivalFrontiers.TellsRounds 1 w ∧
        (ofRound w.iteration w.round w.accepted).map (·.id) = [1, 2] ∧ transferable w.store 0 = .ok [1]) := by
  have hearliest := @searchOrder_twoIterations (min 251 2) (by decide)
  have hfrontiers := @searchOrder_twoIterations 251 (by decide)
  obtain ⟨w, hw, -, -, -, htells⟩ := (performAll_tells 1).1 2 1 (some 1) twoIterations hearliest
  obtain ⟨w', hw', -, -, -, htells'⟩ := (performAll_tells 1).2 5 1 (some 1) twoIterations hfrontiers
  refine ⟨⟨hearliest, w, hw, htells, ?_⟩, hfrontiers, w', hw', htells', ?_⟩
  · have heval : ((performAll (EarliestArrivals.init 1 2) twoIterations).toOption.map fun w =>
        decide ((ofRound w.iteration w.round w.accepted).map (·.id) = [1, 2] ∧ transferable w.store 0 = .ok [1])) =
        some true := by decide +kernel
    rw [hw] at heval
    exact of_decide_eq_true (Option.some.inj heval)
  · have heval : ((performAll (ArrivalFrontiers.init 1 5) twoIterations).toOption.map fun w =>
        decide ((ofRound w.iteration w.round w.accepted).map (·.id) = [1, 2] ∧ transferable w.store 0 = .ok [1])) =
        some true := by decide +kernel
    rw [hw'] at heval
    exact of_decide_eq_true (Option.some.inj heval)

end JourneyPlanner
