import JourneyPlanner.Proofs.Stores
import JourneyPlanner.Proofs.Frontiers
import JourneyPlanner.Search.ArrivalFrontiers
/-!
# The frontiers of arrivals are a lawful store

What a frontier refuses is no better on any criterion than one of its entries, and an entry that has to
go is no better than the one that comes. In one iteration an arrival of a round has as many rides as
the round, so no arrival drives out one of a round before.
-/
namespace JourneyPlanner

namespace FrontierEntry

variable {x e : FrontierEntry}

theorem onBoard_of_toNat_le {a b : Bool} (h : a.toNat ≤ b.toNat) : a = true → b = true := by
  rintro rfl
  cases b with
  | true => rfl
  | false => cases h

theorem of_not_gt (h : Ordering.gt ∉ Criteria.orderings x e) :
    x.time ≤ e.time ∧ x.rides ≤ e.rides ∧ x.cost ≤ e.cost ∧ (e.onBoard = true → x.onBoard = true) := by
  simp only [Criteria.orderings, List.mem_cons, List.not_mem_nil, or_false, not_or] at h
  obtain ⟨h1, h2, h3, h4⟩ := h
  exact ⟨Time.compare_ne_gt.1 (Ne.symm h1), Nat.compare_ne_gt.1 (Ne.symm h2), Int.compare_ne_gt.1 (Ne.symm h3),
    onBoard_of_toNat_le (Nat.compare_ne_gt.1 (Ne.symm h4))⟩

theorem of_not_lt (h : Ordering.lt ∉ Criteria.orderings x e) :
    e.time ≤ x.time ∧ e.rides ≤ x.rides ∧ e.cost ≤ x.cost ∧ (x.onBoard = true → e.onBoard = true) := by
  simp only [Criteria.orderings, List.mem_cons, List.not_mem_nil, or_false, not_or] at h
  obtain ⟨h1, h2, h3, h4⟩ := h
  exact ⟨Time.compare_ne_lt.1 (Ne.symm h1), Nat.compare_ne_lt.1 (Ne.symm h2), Int.compare_ne_lt.1 (Ne.symm h3),
    onBoard_of_toNat_le (Nat.compare_ne_lt.1 (Ne.symm h4))⟩

end FrontierEntry

/-! ## The invariant -/

namespace ArrivalFrontiers

theorem roundStamp_mod (iteration : Nat) {round : Nat} (h : round < 256) :
    roundStamp iteration round % 256 = round := by
  unfold roundStamp
  omega

/-- The entry stands for an arrival of the log at the stop, in the round of its stamp. -/
def IsEntry (log : ArrivalLog) (stop : Stop) (e : FrontierEntry) : Prop :=
  ∃ a, log.get? e.id = .ok a ∧ a.stop = stop ∧ a.time = e.time ∧ a.rides = e.rides ∧ a.cost = e.cost ∧
    a.onBoard = e.onBoard ∧ a.round = e.stamp % 256

/-- Every entry stands for an arrival, which has as many rides as its round. -/
structure Good (n m : Nat) (s : ArrivalFrontiers) : Prop where
  size : s.frontiers.size = n
  rounds_lt : m < 256
  round_le : s.round ≤ m
  entry : ∀ (stop : Nat) (f : Frontier FrontierEntry), s.frontiers[stop]? = some f →
    ∀ e ∈ f.items, IsEntry s.log stop e
  stop_lt : ∀ id a, s.log.get? id = .ok a → a.stop < n
  tallies : ∀ id a, s.log.get? id = .ok a → a.rides = a.round
  onBoard_lt : ∀ stop ∈ s.changes.onBoard, stop < n

theorem good_init {n m : Nat} (capacity : Nat) (hm : m < 256) : Good n m (init n capacity) := by
  refine ⟨by simp [init], hm, Nat.zero_le _, ?_, ?_, ?_, ?_⟩
  · intro stop f hf e he
    obtain ⟨_, rfl⟩ := Array.getElem?_eq_some_iff.1 hf
    simp [init, Frontier.empty] at he
  · intro id a h
    cases h
  · intro id a h
    cases h
  · intro stop h
    cases h

variable {n m : Nat} {s : ArrivalFrontiers}

theorem Good.beginIteration (h : Good n m s) (iteration : Nat) : Good n m (s.beginIteration iteration) :=
  ⟨h.1, h.2, Nat.zero_le _, h.4, h.5, h.6, fun _ hs => by cases hs⟩

theorem Good.beginRound (h : Good n m s) {k : Nat} (hk : k ≤ m) : Good n m (s.beginRound k) :=
  ⟨h.1, h.2, hk, h.4, h.5, h.6, fun stop hstop => h.7 stop (RoundChanges.onBoard_beginRound hstop)⟩

theorem Good.frontier (h : Good n m s) {stop : Stop} (hstop : stop < n) : ∃ f, s.frontiers[stop]? = some f := by
  rw [← h.size] at hstop
  exact ⟨_, Array.getElem?_eq_getElem hstop⟩

theorem frontier?_eq {stop : Stop} {f : Frontier FrontierEntry} (h : s.frontiers[stop]? = some f) :
    s.frontier? stop = .ok f := by
  unfold frontier?
  rw [h]

theorem of_frontier?_eq_ok {stop : Stop} {f : Frontier FrontierEntry} (h : s.frontier? stop = .ok f) :
    s.frontiers[stop]? = some f := by
  unfold frontier? at h
  split at h
  · rename_i hf
    rw [hf, Except.ok.inj h]
  · cases h

theorem IsEntry.push {log : ArrivalLog} {stop : Stop} {e : FrontierEntry} (h : IsEntry log stop e)
    (a : Arrival) : IsEntry (log.push a) stop e := by
  obtain ⟨b, hb, h⟩ := h
  exact ⟨b, ArrivalLog.get?_push hb, h⟩

/-! ## Accepting an arrival -/

/-- The store after an arrival has been accepted at a stop with the frontier `f`. -/
def accepted (s : ArrivalFrontiers) (a : Arrival) (f : Frontier FrontierEntry) : ArrivalFrontiers :=
  { s with
    log := s.log.push a
    frontiers := s.frontiers.modify a.stop fun f => enter s.capacity f (s.entry a s.log.size)
    changes := s.changes.record a
    truncations :=
      if s.capacity < (f.insert (s.entry a s.log.size)).size then s.truncations + 1 else s.truncations }

theorem accept_eq {a : Arrival} {f : Frontier FrontierEntry} (hf : s.frontiers[a.stop]? = some f) :
    s.accept a = .ok (s.accepted a f, s.log.size) := by
  unfold accept
  rw [frontier?_eq hf]
  rfl

/-- Only an arrival at one of the stops is accepted. -/
theorem Good.frontier_of_accept (h : Good n m s) {a : Arrival} {r : ArrivalFrontiers × Nat}
    (haccept : s.accept a = .ok r) : a.stop < n ∧ ∃ f, s.frontiers[a.stop]? = some f := by
  obtain ⟨f, hf, -⟩ := of_bind_eq_ok haccept
  have hf := of_frontier?_eq_ok hf
  rw [← h.size]
  exact ⟨(Array.getElem?_eq_some_iff.1 hf).1, f, hf⟩

theorem mem_enter {capacity : Nat} {f : Frontier FrontierEntry} {e x : FrontierEntry}
    (h : e ∈ (enter capacity f x).items) : e ∈ f.items ∨ e = x := by
  simp only [enter] at h
  split at h
  · simp only [Frontier.dropGreatest] at h
    split at h
    · exact Frontier.mem_insert_cases h
    · exact Frontier.mem_insert_cases (List.mem_of_mem_eraseIdx h)
  · exact Frontier.mem_insert_cases h

/-- The frontier of a stop after an arrival has been accepted. -/
theorem frontiers_accepted {a : Arrival} {f : Frontier FrontierEntry} {stop : Nat}
    {g : Frontier FrontierEntry} (h : (s.accepted a f).frontiers[stop]? = some g) :
    ∃ old, s.frontiers[stop]? = some old ∧
      g = if a.stop = stop then enter s.capacity old (s.entry a s.log.size) else old := by
  simp only [accepted] at h
  rw [Array.getElem?_modify] at h
  split at h
  · rename_i heq
    obtain ⟨old, hold, rfl⟩ := Option.map_eq_some_iff.1 h
    exact ⟨old, hold, by rw [if_pos heq]⟩
  · rename_i hne
    exact ⟨g, h, by rw [if_neg hne]⟩

theorem isEntry_self (h : Good n m s) {a : Arrival} (hround : a.round = s.round) :
    IsEntry (s.log.push a) a.stop (s.entry a s.log.size) := by
  refine ⟨a, ArrivalLog.get?_push_self, rfl, rfl, rfl, rfl, rfl, ?_⟩
  rw [hround]
  exact (roundStamp_mod s.iteration (Nat.lt_of_le_of_lt h.round_le h.rounds_lt)).symm

theorem Good.accepted (h : Good n m s) {a : Arrival} (f : Frontier FrontierEntry) (ha : a.stop < n)
    (hround : a.round = s.round) (htallies : a.rides = a.round) : Good n m (s.accepted a f) := by
  refine ⟨?_, h.rounds_lt, h.round_le, ?_, ?_, ?_, ?_⟩
  · simp only [ArrivalFrontiers.accepted, Array.size_modify, h.size]
  · intro stop g hg e he
    obtain ⟨old, hold, rfl⟩ := frontiers_accepted hg
    split at he
    · rename_i hstop
      rcases mem_enter he with he | rfl
      · exact (h.entry stop old hold e he).push a
      · rw [← hstop]
        exact isEntry_self h hround
    · exact (h.entry stop old hold e he).push a
  · exact ArrivalLog.forall_push h.stop_lt ha
  · exact ArrivalLog.forall_push h.tallies htallies
  · exact RoundChanges.forall_onBoard_record h.onBoard_lt ha

/-! ## What is handed out -/

theorem boardable_beginRound {stop : Stop} {f : Frontier FrontierEntry} (h : s.frontiers[stop]? = some f) :
    (s.beginRound (s.round + 1)).boardable stop =
      .ok ((f.items.filter fun e => e.stamp == roundStamp s.iteration s.round).map (·.id)) := by
  show ((s.beginRound (s.round + 1)).frontier? stop).map _ = _
  rw [frontier?_eq (s := s.beginRound (s.round + 1)) h]
  rfl

theorem transferable_eq {stop : Stop} {f : Frontier FrontierEntry} (h : s.frontiers[stop]? = some f) :
    s.transferable stop =
      .ok ((f.items.filter fun e => e.stamp == roundStamp s.iteration s.round && e.onBoard).map (·.id)) := by
  unfold transferable
  rw [frontier?_eq h]
  rfl

/-- Who boards has arrived at the stop in the round before this one. -/
theorem Good.arrival_of_boardable (h : Good n m s) {stop : Stop} {ids : List Nat} (hids : s.boardable stop = .ok ids)
    {id : Nat} (hid : id ∈ ids) : ∃ a, s.log.get? id = .ok a ∧ a.stop = stop ∧ a.round + 1 = s.round := by
  have hm := h.rounds_lt
  have hle := h.round_le
  unfold boardable at hids
  cases hround : s.round with
  | zero =>
    rw [hround] at hids
    cases hids
    cases hid
  | succ previous =>
    rw [hround] at hids
    obtain ⟨f, hf, rfl⟩ := of_map_eq_ok hids
    obtain ⟨e, he, rfl⟩ := List.mem_map.1 hid
    obtain ⟨hmem, hstamp⟩ := List.mem_filter.1 he
    obtain ⟨a, ha, hastop, _, _, _, _, haround⟩ := h.entry stop f (of_frontier?_eq_ok hf) e hmem
    refine ⟨a, ha, hastop, ?_⟩
    rw [haround, beq_iff_eq.1 hstamp, roundStamp_mod _ (by omega)]

theorem Good.boardable_gives (h : Good n m s) {stop : Stop} (hstop : stop < n) :
    Gives (s.boardable stop) fun ids => ∀ id ∈ ids, ∃ a, s.log.get? id = .ok a ∧ a.stop = stop ∧
      a.rides + 1 = s.round := by
  obtain ⟨f, hf⟩ := h.frontier hstop
  obtain ⟨ids, hids⟩ : ∃ ids, s.boardable stop = .ok ids := by
    unfold boardable
    cases s.round with
    | zero => exact ⟨_, rfl⟩
    | succ previous =>
      rw [frontier?_eq hf]
      exact ⟨_, rfl⟩
  refine ⟨ids, hids, fun id hid => ?_⟩
  obtain ⟨a, ha, hastop, hround⟩ := h.arrival_of_boardable hids hid
  exact ⟨a, ha, hastop, by rw [h.tallies _ a ha, hround]⟩

/-- Who walks has arrived on board at the stop in this round. -/
theorem Good.arrival_of_transferable (h : Good n m s) {stop : Stop} {ids : List Nat}
    (hids : s.transferable stop = .ok ids) {id : Nat} (hid : id ∈ ids) :
    ∃ a, s.log.get? id = .ok a ∧ a.stop = stop ∧ a.onBoard = true ∧ a.round = s.round := by
  obtain ⟨f, hf, rfl⟩ := of_map_eq_ok hids
  obtain ⟨e, he, rfl⟩ := List.mem_map.1 hid
  obtain ⟨hmem, hstamp⟩ := List.mem_filter.1 he
  obtain ⟨hstamp, honBoard⟩ := (Bool.and_eq_true _ _).mp hstamp
  obtain ⟨a, ha, hastop, _, _, _, haboard, haround⟩ := h.entry stop f (of_frontier?_eq_ok hf) e hmem
  refine ⟨a, ha, hastop, by rw [haboard, honBoard], ?_⟩
  rw [haround, beq_iff_eq.1 hstamp, roundStamp_mod _ (Nat.lt_of_le_of_lt h.round_le h.rounds_lt)]

theorem Good.transferable_gives (h : Good n m s) {stop : Stop} (hstop : stop < n) :
    Gives (s.transferable stop) fun ids => ∀ id ∈ ids, ∃ a, s.log.get? id = .ok a ∧ a.stop = stop ∧
      a.onBoard = true ∧ a.rides = s.round := by
  obtain ⟨f, hf⟩ := h.frontier hstop
  refine ⟨_, transferable_eq hf, fun id hid => ?_⟩
  obtain ⟨a, ha, hastop, honBoard, hround⟩ := h.arrival_of_transferable (transferable_eq hf) hid
  exact ⟨a, ha, hastop, honBoard, by rw [h.tallies _ a ha, hround]⟩

/-- What is refused has one in the frontier that is as good. -/
theorem Good.improves_gives (h : Good n m s) {a : Arrival} (ha : a.stop < n) (htallies : a.rides = a.round) :
    Gives (s.improves a) fun better =>
      better = false → s.log.Reaches True a.stop a.time a.cost a.round a.onBoard := by
  obtain ⟨f, hf⟩ := h.frontier ha
  unfold improves
  rw [frontier?_eq hf]
  apply gives_ok
  intro hbetter
  obtain ⟨e, he, hlt⟩ := Frontier.not_admits hbetter
  obtain ⟨htime, hrides, hcost, honBoard⟩ := FrontierEntry.of_not_lt hlt
  obtain ⟨b, hb, hbstop, hbtime, hbrides, hbcost, hbboard, _⟩ := h.entry _ f hf e he
  refine ⟨_, b, hb, hbstop, by rw [hbtime]; exact htime, fun _ => by rw [hbcost]; exact hcost, ?_, ?_⟩
  · rw [← h.tallies _ b hb, hbrides, ← htallies]
    exact hrides
  · rw [hbboard]
    exact honBoard

theorem improves_iff {a : Arrival} {f : Frontier FrontierEntry} (hf : s.frontiers[a.stop]? = some f) :
    s.improves a = .ok true ↔ f.admits (s.entry a s.log.size) = true := by
  unfold improves
  rw [frontier?_eq hf]
  show (Except.ok (f.admits (s.entry a s.log.size)) : Except OutOfRange Bool) = .ok true ↔ _
  rw [Except.ok.injEq]

/-! ## Nothing is lost while there is room -/

/-- The frontier of a stop holds an entry of the current round that is as good as the arrival. -/
def Holds (s : ArrivalFrontiers) (b : Arrival) (onBoard : Bool) : Prop :=
  ∃ f, s.frontiers[b.stop]? = some f ∧ ∃ e ∈ f.items, e.stamp = roundStamp s.iteration s.round ∧
    e.time ≤ b.time ∧ e.cost ≤ b.cost ∧ (onBoard = true → e.onBoard = true)

theorem Good.hands_boardable (h : Good n m s) {b : Arrival} (hround : b.round = s.round)
    (htallies : b.rides = b.round) (hb : s.Holds b false) :
    s.log.Hands ((s.beginRound (s.round + 1)).boardable b.stop) fun c =>
      c.time ≤ b.time ∧ (0 < c.rides → 0 < b.rides) ∧ (True → c.cost ≤ b.cost) := by
  obtain ⟨f, hf, e, he, hstamp, htime, hcost, _⟩ := hb
  obtain ⟨c, hc, _, hctime, _, hccost, _, hcround⟩ := h.entry _ f hf e he
  have hmod := roundStamp_mod s.iteration (Nat.lt_of_le_of_lt h.round_le h.rounds_lt)
  have hctallies := h.tallies _ c hc
  rw [boardable_beginRound hf]
  refine ⟨_, rfl, e.id, List.mem_map_of_mem (List.mem_filter.2 ⟨he, by simpa using hstamp⟩), c, hc, ?_, ?_, ?_⟩
  · rw [hctime]
    exact htime
  · rw [hstamp, hmod] at hcround
    omega
  · rw [hccost]
    exact fun _ => hcost

theorem Good.of_hands_boardable (h : Good n m s) {b : Arrival} (hb : b.stop < n) {P : Arrival → Prop}
    (hands : s.log.Hands ((s.beginRound (s.round + 1)).boardable b.stop) fun c =>
      c.time ≤ b.time ∧ P c ∧ (True → c.cost ≤ b.cost)) : s.Holds b false := by
  obtain ⟨f, hf⟩ := h.frontier hb
  obtain ⟨ids, hids, id, hid, c, hc, hle, _, hcost⟩ := hands
  rw [boardable_beginRound hf] at hids
  obtain rfl := Except.ok.inj hids
  obtain ⟨e, he, rfl⟩ := List.mem_map.1 hid
  obtain ⟨hmem, hstamp⟩ := List.mem_filter.1 he
  obtain ⟨c', hc', _, htime, _, hccost, _⟩ := h.entry _ f hf e hmem
  rw [ArrivalLog.get?_inj hc hc', htime] at hle
  rw [ArrivalLog.get?_inj hc hc', hccost] at hcost
  exact ⟨f, hf, e, hmem, beq_iff_eq.1 hstamp, hle, hcost trivial, fun h => by cases h⟩

theorem Good.hands_transferable (h : Good n m s) {b : Arrival} (hb : s.Holds b true) :
    s.log.Hands (s.transferable b.stop) fun c => c.time ≤ b.time ∧ (True → c.cost ≤ b.cost) := by
  obtain ⟨f, hf, e, he, hstamp, htime, hcost, honBoard⟩ := hb
  obtain ⟨c, hc, _, hctime, _, hccost, _⟩ := h.entry _ f hf e he
  rw [transferable_eq hf]
  refine ⟨_, rfl, e.id, List.mem_map_of_mem (List.mem_filter.2 ⟨he, ?_⟩), c, hc, ?_, fun _ => ?_⟩
  · simp [hstamp, honBoard rfl]
  · rw [hctime]
    exact htime
  · rw [hccost]
    exact hcost

theorem Good.of_hands_transferable (h : Good n m s) {b : Arrival} (hb : b.stop < n)
    (hands : s.log.Hands (s.transferable b.stop) fun c => c.time ≤ b.time ∧ (True → c.cost ≤ b.cost)) :
    s.Holds b true := by
  obtain ⟨f, hf⟩ := h.frontier hb
  obtain ⟨ids, hids, id, hid, c, hc, hle, hcost⟩ := hands
  rw [transferable_eq hf] at hids
  obtain rfl := Except.ok.inj hids
  obtain ⟨e, he, rfl⟩ := List.mem_map.1 hid
  obtain ⟨hmem, hkey⟩ := List.mem_filter.1 he
  obtain ⟨hstamp, honBoard⟩ := (Bool.and_eq_true _ _).mp hkey
  obtain ⟨c', hc', _, htime, _, hccost, _⟩ := h.entry _ f hf e hmem
  rw [ArrivalLog.get?_inj hc hc', htime] at hle
  rw [ArrivalLog.get?_inj hc hc', hccost] at hcost
  exact ⟨f, hf, e, hmem, beq_iff_eq.1 hstamp, hle, hcost trivial, fun _ => honBoard⟩

section Accepting

variable {a : Arrival} {f : Frontier FrontierEntry}

/-- With room for the new arrival nothing else leaves the frontier than what it dominates. -/
theorem enter_of_room (hroom : (s.accepted a f).truncations = 0) :
    enter s.capacity f (s.entry a s.log.size) = f.insert (s.entry a s.log.size) := by
  simp only [accepted] at hroom
  simp only [enter]
  split
  · rename_i hfull
    rw [if_pos hfull] at hroom
    cases hroom
  · rfl

theorem truncations_le : s.truncations ≤ (s.accepted a f).truncations := by
  simp only [accepted]
  split
  · exact Nat.le_succ _
  · exact Nat.le_refl _

/-- What the frontier held it still holds, or the new arrival is as good. -/
theorem Holds.accepted {b : Arrival} {onBoard : Bool} (hb : s.Holds b onBoard)
    (hf : s.frontiers[a.stop]? = some f) (hroom : (s.accepted a f).truncations = 0) :
    (s.accepted a f).Holds b onBoard := by
  obtain ⟨g, hg, e, he, hstamp, htime, hcost, honBoard⟩ := hb
  have hlookup : (s.accepted a f).frontiers[b.stop]? =
      some (if a.stop = b.stop then enter s.capacity g (s.entry a s.log.size) else g) := by
    simp only [ArrivalFrontiers.accepted]
    rw [Array.getElem?_modify, hg]
    split <;> rfl
  refine ⟨_, hlookup, ?_⟩
  split
  · rename_i hstop
    obtain rfl : f = g := by
      rw [hstop, hg] at hf
      exact (Option.some.inj hf).symm
    rw [enter_of_room hroom]
    rcases Frontier.insert_keeps (x := s.entry a s.log.size) he with hmem | ⟨hmem, hgt⟩
    · exact ⟨e, hmem, hstamp, htime, hcost, honBoard⟩
    · obtain ⟨hle, _, hless, hboard⟩ := FrontierEntry.of_not_gt hgt
      exact ⟨_, hmem, rfl, Time.le_trans hle htime, Int.le_trans hless hcost, fun h => hboard (honBoard h)⟩
  · exact ⟨e, he, hstamp, htime, hcost, honBoard⟩

theorem holds_self (hf : s.frontiers[a.stop]? = some f) (hroom : (s.accepted a f).truncations = 0)
    (hadmits : f.admits (s.entry a s.log.size) = true) : (s.accepted a f).Holds a a.onBoard := by
  have hlookup : (s.accepted a f).frontiers[a.stop]? = some (enter s.capacity f (s.entry a s.log.size)) := by
    simp only [accepted]
    rw [Array.getElem?_modify, hf, if_pos rfl]
    rfl
  refine ⟨_, hlookup, s.entry a s.log.size, ?_, rfl, Time.le_refl _, Int.le_refl _, fun h => h⟩
  rw [enter_of_room hroom, Frontier.insert_of_admits hadmits]
  exact List.mem_append_right _ (List.mem_singleton_self _)

/-- The arrivals of the round keep their turn when another one is accepted. -/
theorem Good.keeps_accepted (h : Good n m s) (hf : s.frontiers[a.stop]? = some f) (ha : a.stop < n)
    (hround : a.round = s.round) (htallies : a.rides = a.round)
    (hadmits : f.admits (s.entry a s.log.size) = true) (hroom : (s.accepted a f).truncations = 0)
    {first : Nat} (hkeeps : ArrivalStore.Keeps True s first) : ArrivalStore.Keeps True (s.accepted a f) first := by
  have h' := h.accepted f ha hround htallies
  refine hkeeps.push (t := s.accepted a f) rfl rfl rfl hround ?_ ?_
  · intro id b hid hb hbround
    apply h'.hands_boardable hbround (h'.tallies id b hb)
    rcases ArrivalLog.get?_push_cases hb with hb | ⟨_, rfl⟩
    · exact (h.of_hands_boardable (h.stop_lt id b hb) (hkeeps.boards id b hid hb)).accepted hf hroom
    · obtain ⟨g, hg, e, he, hstamp, htime, hcost, _⟩ := holds_self hf hroom hadmits
      exact ⟨g, hg, e, he, hstamp, htime, hcost, fun h => by cases h⟩
  · intro id b hid hb honBoard _
    apply h'.hands_transferable
    rcases ArrivalLog.get?_push_cases hb with hb | ⟨_, rfl⟩
    · have hands := (hkeeps.walks id b hid hb honBoard).2
      exact (h.of_hands_transferable (h.stop_lt id b hb) hands).accepted hf hroom
    · have hself := holds_self hf hroom hadmits
      rw [honBoard] at hself
      exact hself

/-- A new arrival dominates none of a round before, since those have fewer rides. -/
theorem Good.not_dominates (h : Good n m s) (hf : s.frontiers[a.stop]? = some f) (hround : a.round = s.round)
    (htallies : a.rides = a.round) {previous : Nat} (hprevious : previous < s.round) {e : FrontierEntry}
    (he : e ∈ f.items) (hstamp : e.stamp = roundStamp s.iteration previous) :
    dominance (s.entry a s.log.size) e ≠ .dominates := by
  intro hdom
  obtain ⟨b, hb, _, _, hbrides, _, _, hbround⟩ := h.entry _ f hf e he
  have hm := h.rounds_lt
  have hle := h.round_le
  have htally := h.tallies _ b hb
  have hrides : a.rides ≤ e.rides := (FrontierEntry.of_not_gt (dominance_eq_dominates hdom)).2.1
  rw [hstamp, roundStamp_mod _ (by omega)] at hbround
  omega

/-- Entering a new arrival leaves the entries of a round before as they are. -/
theorem Good.filter_insert (h : Good n m s) (hf : s.frontiers[a.stop]? = some f) (hround : a.round = s.round)
    (htallies : a.rides = a.round) (hadmits : f.admits (s.entry a s.log.size) = true) {previous : Nat}
    (hprevious : previous < s.round) :
    (f.insert (s.entry a s.log.size)).items.filter (fun e => e.stamp == roundStamp s.iteration previous) =
      f.items.filter fun e => e.stamp == roundStamp s.iteration previous := by
  have hm := h.rounds_lt
  have hle := h.round_le
  have hnew : ¬ (s.entry a s.log.size).stamp = roundStamp s.iteration previous := by
    intro heq
    have h1 := roundStamp_mod s.iteration (show s.round < 256 by omega)
    have h2 := roundStamp_mod s.iteration (show previous < 256 by omega)
    have heq : roundStamp s.iteration s.round = roundStamp s.iteration previous := heq
    rw [heq] at h1
    omega
  rw [Frontier.insert_of_admits hadmits, List.filter_append, List.filter_filter,
    List.filter_cons_of_neg (by simpa using hnew), List.filter_nil, List.append_nil]
  apply List.filter_congr
  intro e he
  by_cases hstamp : e.stamp = roundStamp s.iteration previous
  · have hnot := h.not_dominates hf hround htallies hprevious he hstamp
    simp [hstamp, hnot]
  · simp [hstamp]

/-- Nothing that is accepted in a round changes what the round may board from. -/
theorem Good.boardable_accepted (h : Good n m s) (hf : s.frontiers[a.stop]? = some f)
    (hround : a.round = s.round) (htallies : a.rides = a.round)
    (hadmits : f.admits (s.entry a s.log.size) = true) (hroom : (s.accepted a f).truncations = 0)
    (stop : Stop) : (s.accepted a f).boardable stop = s.boardable stop := by
  have hsame : (s.accepted a f).round = s.round := rfl
  unfold boardable
  rw [hsame]
  cases hk : s.round with
  | zero => rfl
  | succ previous =>
    simp only [frontier?, ArrivalFrontiers.accepted]
    rw [Array.getElem?_modify]
    by_cases hstop : a.stop = stop
    · subst hstop
      have hprevious : previous < s.round := by omega
      have hfilter := h.filter_insert hf hround htallies hadmits hprevious
      rw [if_pos rfl, hf]
      simp only [Option.map_some]
      rw [enter_of_room hroom]
      exact congrArg (fun items => Except.ok (List.map FrontierEntry.id items)) hfilter
    · rw [if_neg hstop]

end Accepting

end ArrivalFrontiers

open ArrivalFrontiers in
instance : LawfulStore ArrivalFrontiers where
  Good := Good
  Heeds := True
  Tallies rides round := rides = round
  tallies_self _ := rfl
  rides_le h := Nat.le_of_eq h
  reject_eq _ _ := rfl
  log_beginIteration _ _ := rfl
  log_beginRound _ _ := rfl
  round_beginRound _ _ := rfl
  previous_beginRound _ _ := rfl
  truncations_beginIteration _ _ := rfl
  truncations_beginRound _ _ := rfl
  good_beginIteration h i := h.beginIteration i
  good_beginRound h _ hk := h.beginRound hk
  good_tallies h := h.tallies
  onBoard_lt h := h.onBoard_lt
  boardable_gives h _ hstop := h.boardable_gives hstop
  transferable_gives h _ hstop := h.transferable_gives hstop
  improves_gives h ha _ htallies := h.improves_gives ha htallies
  accept_gives := by
    intro n m s a h ha hround htallies hbetter
    obtain ⟨f, hf⟩ := h.frontier ha
    have hadmits := (improves_iff hf).1 hbetter
    refine ⟨_, accept_eq hf, rfl, h.accepted f ha hround htallies, rfl, rfl, rfl, truncations_le, ?_, ?_⟩
    · exact fun hroom => h.boardable_accepted hf hround htallies hadmits hroom
    · exact fun hroom first _ hkeeps => h.keeps_accepted hf ha hround htallies hadmits hroom hkeeps
  outrides_le h := by
    simp only [ArrivalStore.outrides, ArrivalFrontiers.outrides, Bool.and_eq_true, decide_eq_true_eq] at h
    exact h.1.1.2

end JourneyPlanner
