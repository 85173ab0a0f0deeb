import JourneyPlanner.Proofs.FrontierStore
import JourneyPlanner.Proofs.Histories
import JourneyPlanner.Proofs.Undominated
/-!
# What a frontier tells of its history

The entries of a stop's frontier stand for arrivals that have been offered there. Until one has been
dropped for want of room they are those that nothing else has beaten. Dropping may lose an arrival that
nothing beats, but never the cheapest one, since it takes the most expensive of at least two.
-/
namespace JourneyPlanner

namespace Arrival

/-- The first arrival is no later than the second, with no more rides, no more expensive, and on board if
that one is. -/
def NoWorse (a b : Arrival) : Prop :=
  a.time ≤ b.time ∧ a.rides ≤ b.rides ∧ a.cost ≤ b.cost ∧ (b.onBoard = true → a.onBoard = true)

instance (a b : Arrival) : Decidable (NoWorse a b) := inferInstanceAs (Decidable (_ ∧ _))

theorem NoWorse.refl (a : Arrival) : a.NoWorse a :=
  ⟨Time.le_refl _, Nat.le_refl _, Int.le_refl _, fun h => h⟩

theorem NoWorse.trans {a b c : Arrival} (h : a.NoWorse b) (h' : b.NoWorse c) : a.NoWorse c :=
  ⟨Time.le_trans h.1 h'.1, Nat.le_trans h.2.1 h'.2.1, Int.le_trans h.2.2.1 h'.2.2.1, fun hc => h.2.2.2 (h'.2.2.2 hc)⟩

end Arrival

/-! ## What may be kept of some arrivals -/

/-- The arrivals that are kept of those offered, in the order of the offers. Unless some have been dropped
they are the undominated ones, and in any case the cheapest is as cheap as the cheapest that was offered. -/
structure KeptOf (offered : List Arrival) (dropped : Prop) (kept : List Arrival) : Prop where
  sublist : kept.Sublist offered
  incomparable : kept.Pairwise fun a b => ¬ a.NoWorse b ∧ ¬ b.NoWorse a
  cheapest : (kept.map (·.cost)).min? = (offered.map (·.cost)).min?
  undominated : ¬ dropped → kept = undominated Arrival.NoWorse offered

section Kept

variable {offered kept : List Arrival} {dropped dropped' : Prop} {a x : Arrival}

/-- Of some of the arrivals the cheapest is as cheap as of all if each has one that is no more expensive. -/
theorem cheapest_iff (h : kept.Sublist offered) :
    (kept.map (·.cost)).min? = (offered.map (·.cost)).min? ↔ ∀ b ∈ offered, ∃ a ∈ kept, a.cost ≤ b.cost := by
  constructor
  · intro heq b hb
    cases hmin : (offered.map (·.cost)).min? with
    | none =>
      rw [List.min?_eq_none_iff, List.map_eq_nil_iff] at hmin
      rw [hmin] at hb
      cases hb
    | some cost =>
      rw [hmin] at heq
      obtain ⟨hmem, -⟩ := List.min?_eq_some_iff.1 heq
      obtain ⟨a, ha, rfl⟩ := List.mem_map.1 hmem
      exact ⟨a, ha, (List.min?_eq_some_iff.1 hmin).2 _ (List.mem_map_of_mem hb)⟩
  · intro hcovers
    cases hmin : (kept.map (·.cost)).min? with
    | none =>
      rw [List.min?_eq_none_iff, List.map_eq_nil_iff] at hmin
      symm
      rw [List.min?_eq_none_iff, List.map_eq_nil_iff, List.eq_nil_iff_forall_not_mem]
      intro b hb
      obtain ⟨a, ha, -⟩ := hcovers b hb
      rw [hmin] at ha
      cases ha
    | some cost =>
      obtain ⟨hmem, hle⟩ := List.min?_eq_some_iff.1 hmin
      obtain ⟨a, ha, rfl⟩ := List.mem_map.1 hmem
      symm
      refine List.min?_eq_some_iff.2 ⟨List.mem_map_of_mem (h.subset ha), ?_⟩
      intro cost hcost
      obtain ⟨b, hb, rfl⟩ := List.mem_map.1 hcost
      obtain ⟨a', ha', hab⟩ := hcovers b hb
      exact Int.le_trans (hle _ (List.mem_map_of_mem ha')) hab

theorem keptOf_nil (dropped : Prop) : KeptOf [] dropped [] := ⟨.slnil, .nil, rfl, fun _ => rfl⟩

theorem KeptOf.mono (h : KeptOf offered dropped kept) (hdropped : dropped → dropped') : KeptOf offered dropped' kept :=
  ⟨h.sublist, h.incomparable, h.cheapest, fun hnot => h.undominated fun hd => hnot (hdropped hd)⟩

/-- One more arrival is kept unless a kept one is no worse; then those go that are no better. -/
theorem KeptOf.insert (h : KeptOf offered dropped kept) (a : Arrival) :
    KeptOf (offered ++ [a]) dropped (insertUndominated Arrival.NoWorse kept a) := by
  have hsublist : (insertUndominated Arrival.NoWorse kept a).Sublist (offered ++ [a]) :=
    insertUndominated_sublist h.sublist
  refine ⟨hsublist, insertUndominated_pairwise h.incomparable, (cheapest_iff hsublist).2 ?_, ?_⟩
  · have hcovers : ∀ b ∈ kept ++ [a], ∃ c ∈ insertUndominated Arrival.NoWorse kept a, c.cost ≤ b.cost := by
      intro b hb
      obtain ⟨c, hc, hle⟩ := insertUndominated_covers Arrival.NoWorse.refl hb
      exact ⟨c, hc, hle.2.2.1⟩
    intro b hb
    rcases List.mem_append.1 hb with hb | hb
    · obtain ⟨c, hc, hle⟩ := (cheapest_iff h.sublist).1 h.cheapest b hb
      obtain ⟨d, hd, hle'⟩ := hcovers c (List.mem_append_left _ hc)
      exact ⟨d, hd, Int.le_trans hle' hle⟩
    · exact hcovers b (List.mem_append_right _ hb)
  · intro hnot
    rw [h.undominated hnot]
    exact insertUndominated_undominated Arrival.NoWorse.refl fun _ _ _ => Arrival.NoWorse.trans

/-- The most expensive one of several may be dropped. -/
theorem KeptOf.drop (h : KeptOf offered dropped' kept) {i : Nat} (hx : kept[i]? = some x)
    (hmost : ∀ b ∈ kept, b.cost ≤ x.cost) (hsize : 2 ≤ kept.length) (hdropped : dropped) :
    KeptOf offered dropped (kept.eraseIdx i) := by
  have hsublist := (List.eraseIdx_sublist kept i).trans h.sublist
  refine ⟨hsublist, h.incomparable.sublist (List.eraseIdx_sublist kept i), (cheapest_iff hsublist).2 ?_,
    fun hnot => absurd hdropped hnot⟩
  -- Another one stays, which is no more expensive than the one that goes.
  have hother : ∃ c ∈ kept.eraseIdx i, c.cost ≤ x.cost := by
    obtain ⟨j, hj, hji⟩ : ∃ j, j < kept.length ∧ j ≠ i := ⟨if i = 0 then 1 else 0, by split <;> omega⟩
    exact ⟨kept[j], List.mem_eraseIdx_iff_getElem.2 ⟨j, hj, hji, rfl⟩, hmost _ (List.getElem_mem hj)⟩
  intro b hb
  obtain ⟨c, hc, hle⟩ := (cheapest_iff h.sublist).1 h.cheapest b hb
  obtain ⟨j, hj, rfl⟩ := List.mem_iff_getElem.1 hc
  by_cases hji : j = i
  · subst hji
    obtain ⟨d, hd, hle'⟩ := hother
    obtain rfl := Option.some.inj ((List.getElem?_eq_getElem hj).symm.trans hx)
    exact ⟨d, hd, Int.le_trans hle' hle⟩
  · exact ⟨kept[j], List.mem_eraseIdx_iff_getElem.2 ⟨j, hj, hji, rfl⟩, hle⟩

end Kept

/-! ## The entries of a frontier -/

instance : Std.TransOrd Time := inferInstanceAs (Std.TransCmp (compareOn Time.secs))

namespace FrontierEntry

/-- The entry is that of the arrival under its number. -/
def StandsFor (log : ArrivalLog) (e : FrontierEntry) (a : Arrival) : Prop :=
  log.get? e.id = .ok a ∧ e = .ofArrival a e.id e.stamp

variable {log log' : ArrivalLog} {e e' : FrontierEntry} {a b : Arrival} {id id' stamp stamp' : Nat}

theorem StandsFor.mono (h : StandsFor log e a) (hlog : log.Extends log') : StandsFor log' e a :=
  ⟨hlog _ _ h.1, h.2⟩

theorem noWorse_iff : Criteria.NoWorse e e' ↔
    e.time ≤ e'.time ∧ e.rides ≤ e'.rides ∧ e.cost ≤ e'.cost ∧ (e'.onBoard = true → e.onBoard = true) := by
  have honBoard : e'.onBoard.toNat ≤ e.onBoard.toNat ↔ (e'.onBoard = true → e.onBoard = true) := by
    cases e.onBoard <;> cases e'.onBoard <;> decide
  simp only [Criteria.NoWorse, Criteria.orderings, List.mem_cons, List.not_mem_nil, or_false, not_or]
  refine and_congr ?_ (and_congr ?_ (and_congr ?_ ?_))
  · exact ne_comm.trans Time.compare_ne_gt
  · exact ne_comm.trans Nat.compare_ne_gt
  · exact ne_comm.trans Int.compare_ne_gt
  · exact (ne_comm.trans Nat.compare_ne_gt).trans honBoard

/-- What entries are compared on. Being on board is better than not. -/
def criteria : List (FrontierEntry → FrontierEntry → Ordering) :=
  [compareOn time, compareOn rides, compareOn cost, fun a b => compareOn (·.onBoard.toNat) b a]

theorem isProduct : Criteria.IsProduct criteria where
  total := by
    simp only [criteria, List.forall_mem_cons]
    exact ⟨inferInstance, inferInstance, inferInstance, .opposite, by simp⟩
  orderings_eq _ _ := rfl

instance : LawfulCriteria FrontierEntry := .of_isProduct isProduct

theorem cost_le_of_isLE (h : (e.dropOrder e').isLE = true) : e.cost ≤ e'.cost := by
  refine Int.not_lt.1 fun hlt => ?_
  rw [dropOrder, Int.compare_eq_gt.2 hlt] at h
  cases h

theorem cost_le_of_not_isLE (h : (e.dropOrder e').isLE = false) : e'.cost ≤ e.cost := by
  refine Int.not_lt.1 fun hlt => ?_
  rw [dropOrder, Int.compare_eq_lt.2 hlt] at h
  cases h

end FrontierEntry

namespace ArrivalFrontiers

section Entering

variable {log log' : ArrivalLog} {f : Frontier FrontierEntry} {x : FrontierEntry} {a : Arrival}
  {offered kept : List Arrival} {dropped dropped' : Prop} {id stamp capacity : Nat}

/-- The entries of the frontier stand for arrivals kept of those offered, as many as there is room for. -/
def KeepsOf (log : ArrivalLog) (capacity : Nat) (offered : List Arrival) (dropped : Prop)
    (f : Frontier FrontierEntry) : Prop :=
  f.size ≤ capacity ∧ ∃ kept, List.Forall₂ (FrontierEntry.StandsFor log) f.items kept ∧ KeptOf offered dropped kept

theorem KeepsOf.mono (h : KeepsOf log capacity offered dropped' f) (hlog : log.Extends log')
    (hdropped : dropped' → dropped) : KeepsOf log' capacity offered dropped f := by
  obtain ⟨hsize, kept, hf, hkept⟩ := h
  exact ⟨hsize, kept, hf.imp fun _ _ h => h.mono hlog, hkept.mono hdropped⟩

/-- A frontier takes in an arrival if none of those that its entries stand for is as good in everything. -/
theorem admits_iff (hf : List.Forall₂ (FrontierEntry.StandsFor log) f.items kept) :
    f.admits (.ofArrival a id stamp) = true ↔ ¬ ∃ b ∈ kept, b.NoWorse a := by
  rw [Frontier.admits_iff, exists_le_iff hf]
  rintro e b ⟨-, he⟩
  rw [he]
  exact FrontierEntry.noWorse_iff

/-- What a frontier refuses need not be kept. -/
theorem KeepsOf.refused (h : KeepsOf log capacity offered dropped f) (hnot : f.admits (.ofArrival a id stamp) = false) :
    KeepsOf log capacity (offered ++ [a]) dropped f := by
  obtain ⟨hsize, kept, hf, hkept⟩ := h
  have hsome : ∃ b ∈ kept, b.NoWorse a := by
    refine Classical.not_not.1 fun hnone => ?_
    rw [(admits_iff hf).2 hnone] at hnot
    cases hnot
  have hinsert := hkept.insert a
  rw [insertUndominated, if_pos hsome] at hinsert
  exact ⟨hsize, kept, hf, hinsert⟩

theorem items_insert (hf : List.Forall₂ (FrontierEntry.StandsFor log) f.items kept) (hx : x.StandsFor log a) :
    List.Forall₂ (FrontierEntry.StandsFor log) (f.insert x).items (insertUndominated Arrival.NoWorse kept a) := by
  rw [Frontier.items_insert]
  refine insertUndominated_forall₂ hf hx ?_ ?_
  all_goals
    rintro e b ⟨-, he⟩
    rw [he, hx.2]
    exact FrontierEntry.noWorse_iff

/-- Dropping an entry drops the most expensive arrival. -/
theorem dropGreatest_spec (hf : List.Forall₂ (FrontierEntry.StandsFor log) f.items kept)
    (hkept : KeptOf offered dropped' kept) (hfull : capacity < f.size) (hsize : f.size ≤ capacity + 1)
    (hcapacity : 0 < capacity) (hdropped : dropped) :
    KeepsOf log capacity offered dropped (f.dropGreatest fun a b => (a.dropOrder b).isLE) := by
  unfold Frontier.size at hfull hsize
  have hlength := hf.length_eq
  obtain ⟨i, e, he, hmost, hitems⟩ := Frontier.dropGreatest_spec FrontierEntry.cost
    (fun _ _ => FrontierEntry.cost_le_of_isLE) (fun _ _ => FrontierEntry.cost_le_of_not_isLE)
    (show f.items ≠ [] from List.ne_nil_of_length_pos (by omega))
  obtain ⟨hi, rfl⟩ := List.getElem?_eq_some_iff.1 he
  have hcost : ∀ (j : Nat) (hj : j < f.items.length) (hj' : j < kept.length), f.items[j].cost = kept[j].cost :=
    fun j hj hj' => congrArg FrontierEntry.cost (hf.get hj hj').2
  refine ⟨?_, kept.eraseIdx i, ?_, hkept.drop (List.getElem?_eq_getElem (hlength ▸ hi)) ?_ (by omega) hdropped⟩
  · unfold Frontier.size
    rw [hitems, List.length_eraseIdx_of_lt hi]
    omega
  · rw [hitems, List.eraseIdx_eq_take_drop_succ, List.eraseIdx_eq_take_drop_succ]
    exact List.rel_append (List.forall₂_take i hf) (List.forall₂_drop (i + 1) hf)
  · intro b hb
    obtain ⟨j, hj, rfl⟩ := List.mem_iff_getElem.1 hb
    rw [← hcost j (hlength ▸ hj) hj, ← hcost i hi]
    exact hmost _ (List.getElem_mem _)

/-- What is entered is kept, and if there are too many then the most expensive one is dropped. -/
theorem KeepsOf.enter (h : KeepsOf log capacity offered dropped f) (hx : x.StandsFor log a) (hcapacity : 0 < capacity)
    (hdropped : capacity < (f.insert x).size → dropped) :
    KeepsOf log capacity (offered ++ [a]) dropped (enter capacity f x) := by
  obtain ⟨hsize, kept, hf, hkept⟩ := h
  have hinsert := items_insert hf hx
  have hkept' := hkept.insert a
  have hone : (f.insert x).size ≤ f.size + 1 := by
    unfold Frontier.size
    rw [Frontier.items_insert]
    simpa using (insertUndominated_sublist (List.Sublist.refl f.items)).length_le
  simp only [ArrivalFrontiers.enter]
  split
  · rename_i hfull
    exact dropGreatest_spec hinsert hkept' hfull (by omega) hcapacity (hdropped hfull)
  · rename_i hroom
    exact ⟨Nat.le_of_not_lt hroom, _, hinsert, hkept'⟩

end Entering

/-! ## The frontiers of all stops -/

open ArrivalStore

/-- One of some calls to a new store has dropped an arrival at the stop for want of room. -/
def DropsAt (n capacity : Nat) (calls : List StoreCall) (stop : Stop) : Prop :=
  ∃ before a after s s', calls = before ++ .offer a :: after ∧ a.stop = stop ∧
    performAll (init n capacity) before = .ok s ∧ perform s (.offer a) = .ok s' ∧ s.truncations < s'.truncations

variable {n capacity : Nat} {calls : List StoreCall} {call : StoreCall} {s s' : ArrivalFrontiers} {stop : Stop}
  {a : Arrival} {f : Frontier FrontierEntry}

theorem DropsAt.concat (h : DropsAt n capacity calls stop) (call : StoreCall) :
    DropsAt n capacity (calls ++ [call]) stop := by
  obtain ⟨before, a, after, s, s', rfl, h⟩ := h
  exact ⟨before, a, after ++ [call], s, s', by simp, h⟩

theorem dropsAt_concat (hs : performAll (init n capacity) calls = .ok s) (hs' : perform s (.offer a) = .ok s')
    (h : s.truncations < s'.truncations) : DropsAt n capacity (calls ++ [.offer a]) a.stop :=
  ⟨calls, a, [], s, s', rfl, rfl, hs, hs', h⟩

/-- The store is what some calls have made of a new one, and each frontier keeps of what they have offered. -/
structure Recalls (n capacity : Nat) (calls : List StoreCall) (s : ArrivalFrontiers) : Prop where
  performed : performAll (init n capacity) calls = .ok s
  size : s.frontiers.size = n
  room : s.capacity = max 1 capacity
  frontier : ∀ (stop : Nat) (f : Frontier FrontierEntry), s.frontiers[stop]? = some f →
    KeepsOf s.log (max 1 capacity) (StoreCall.offeredAt calls stop) (DropsAt n capacity calls stop) f

theorem recalls_init (n capacity : Nat) : Recalls n capacity [] (init n capacity) := by
  refine ⟨rfl, by simp [init], rfl, ?_⟩
  intro stop f hf
  obtain ⟨_, rfl⟩ := Array.getElem?_eq_some_iff.1 hf
  simp only [init, Array.getElem_replicate]
  exact ⟨Nat.zero_le _, [], .nil, keptOf_nil _⟩

/-- What an offer does: it is accepted if the frontier of its stop takes it in. -/
theorem offer_eq (hf : s.frontiers[a.stop]? = some f) : offer s a =
    .ok (if f.admits (s.entry a s.log.size) then (s.accepted a f, some s.log.size) else (s, none)) := by
  have hbetter : ArrivalStore.improves s a = .ok (f.admits (s.entry a s.log.size)) := by
    show (s.frontier? a.stop).map _ = _
    rw [frontier?_eq hf]
    rfl
  have haccept : ArrivalStore.accept s a = .ok (s.accepted a f, s.log.size) := accept_eq hf
  unfold offer
  rw [hbetter, ok_bind]
  cases f.admits (s.entry a s.log.size) with
  | true =>
    rw [if_pos rfl, if_pos rfl, haccept]
    rfl
  | false => rfl

theorem perform_offer (hf : s.frontiers[a.stop]? = some f) :
    perform s (.offer a) = .ok (if f.admits (s.entry a s.log.size) then s.accepted a f else s) := by
  show (offer s a).map _ = _
  rw [offer_eq hf]
  cases f.admits (s.entry a s.log.size) <;> rfl

/-- A call that offers nothing changes no frontier. -/
theorem Recalls.silent (h : Recalls n capacity calls s) (hs' : perform s call = .ok s')
    (hoffers : ∀ k, call.offer? k = none) (hfrontiers : s'.frontiers = s.frontiers) (hlog : s'.log = s.log)
    (hroom : s'.capacity = s.capacity) : Recalls n capacity (calls ++ [call]) s' := by
  refine ⟨performAll_concat h.performed hs', hfrontiers ▸ h.size, hroom ▸ h.room, ?_⟩
  · intro stop f hf
    rw [hfrontiers] at hf
    have hoffered : StoreCall.offeredAt (calls ++ [call]) stop = StoreCall.offeredAt calls stop := by
      unfold StoreCall.offeredAt
      rw [StoreCall.offers_concat, hoffers, Option.toList_none, List.append_nil]
    rw [hoffered, hlog]
    exact (h.frontier stop f hf).mono (ArrivalLog.extends_refl _) fun h => h.concat call

theorem offeredAt_concat : StoreCall.offeredAt (calls ++ [.offer a]) stop =
    StoreCall.offeredAt calls stop ++ if a.stop = stop then [a] else [] := by
  unfold StoreCall.offeredAt
  rw [StoreCall.offers_concat, List.filter_append, List.map_append]
  by_cases h : a.stop = stop <;> simp [StoreCall.offer?, h]

theorem Recalls.refused (h : Recalls n capacity calls s) (hf : s.frontiers[a.stop]? = some f)
    (hs : perform s (.offer a) = .ok s) (hnot : f.admits (s.entry a s.log.size) = false) :
    Recalls n capacity (calls ++ [.offer a]) s := by
  refine ⟨performAll_concat h.performed hs, h.size, h.room, ?_⟩
  intro stop g hg
  have hkeeps := (h.frontier stop g hg).mono (ArrivalLog.extends_refl _) fun h => h.concat (.offer a)
  rw [offeredAt_concat]
  split
  · rename_i hstop
    rw [hstop, hg] at hf
    cases hf
    exact hkeeps.refused hnot
  · rwa [List.append_nil]

/-- An accepted arrival changes the frontier of its stop only. -/
theorem Recalls.accepted (h : Recalls n capacity calls s) (hf : s.frontiers[a.stop]? = some f)
    (hs' : perform s (.offer a) = .ok (s.accepted a f)) :
    Recalls n capacity (calls ++ [.offer a]) (s.accepted a f) := by
  refine ⟨performAll_concat h.performed hs', ?_, h.room, ?_⟩
  · simp only [ArrivalFrontiers.accepted, Array.size_modify, h.size]
  · intro stop g hg
    obtain ⟨old, hold, rfl⟩ := frontiers_accepted hg
    have hkeeps := (h.frontier stop old hold).mono (ArrivalLog.extends_push s.log a) fun h => h.concat (.offer a)
    rw [offeredAt_concat]
    split
    · rename_i hstop
      rw [hstop, hold] at hf
      cases hf
      rw [h.room]
      refine hkeeps.enter ⟨ArrivalLog.get?_push_self, rfl⟩ (by omega) fun hfull => ?_
      rw [← hstop]
      refine dropsAt_concat h.performed hs' ?_
      simp only [ArrivalFrontiers.accepted]
      rw [h.room, if_pos hfull]
      exact Nat.lt_succ_self _
    · rwa [List.append_nil]

/-- After any calls, whatever their order, the frontier of each stop keeps of all that was offered there the
undominated arrivals, or if one has been dropped for want of room then some with the cheapest among them. -/
theorem performAll_keeps_undominated (n capacity : Nat) (calls : List StoreCall)
    (hstops : ∀ a, .offer a ∈ calls → a.stop < n) :
    ∃ s, performAll (init n capacity) calls = .ok s ∧ ∀ stop < n, ∃ f, s.frontier? stop = .ok f ∧
      KeepsOf (log s) (max 1 capacity) (StoreCall.offeredAt calls stop) (DropsAt n capacity calls stop) f := by
  have key : Gives (performAll (init n capacity) calls) (Recalls n capacity calls) := by
    refine gives_foldlM calls _ (recalls_init n capacity) ?_
    intro done call rest s hcalls hs
    cases call with
    | beginIteration i => exact ⟨_, rfl, hs.silent rfl (fun _ => rfl) rfl rfl rfl⟩
    | beginRound k => exact ⟨_, rfl, hs.silent rfl (fun _ => rfl) rfl rfl rfl⟩
    | offer a =>
      have hstop : a.stop < s.frontiers.size := hs.size ▸ hstops a (by simp [hcalls])
      have hf := Array.getElem?_eq_getElem hstop
      have hoffer := perform_offer hf
      split at hoffer
      · exact ⟨_, hoffer, hs.accepted hf hoffer⟩
      · rename_i hnot
        exact ⟨_, hoffer, hs.refused hf hoffer (Bool.eq_false_iff.2 hnot)⟩
  obtain ⟨s, hs, hrecalls⟩ := key
  refine ⟨s, hs, fun stop hstop => ?_⟩
  have hf := Array.getElem?_eq_getElem (show stop < s.frontiers.size from hrecalls.size ▸ hstop)
  exact ⟨_, frontier?_eq hf, hrecalls.frontier stop _ hf⟩

/-- With room for two, an early and expensive arrival and a late one leave place for a third one, and the most
expensive of the three is dropped. -/
theorem keeps_two_of_three :
    let early : Arrival := ⟨none, 0, .ofSecs 8, 0, 30, 0, .access 0 false⟩
    let late : Arrival := ⟨none, 0, .ofSecs 10, 0, 10, 0, .access 1 false⟩
    let between : Arrival := ⟨none, 0, .ofSecs 9, 0, 20, 0, .access 2 false⟩
    let calls : List StoreCall := [.beginIteration 0, .beginRound 0, .offer early, .offer late, .offer between]
    (∀ a, .offer a ∈ calls → a.stop < 1) ∧
      ∃ s, performAll (init 1 2) calls = .ok s ∧ ∀ stop < 1, ∃ f, s.frontier? stop = .ok f ∧
        KeepsOf (log s) 2 (StoreCall.offeredAt calls stop) (DropsAt 1 2 calls stop) f :=
  ⟨by simp, performAll_keeps_undominated 1 2 _ (by simp)⟩

end ArrivalFrontiers

end JourneyPlanner
