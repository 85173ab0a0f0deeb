import JourneyPlanner.Proofs.Provenance
import JourneyPlanner.Proofs.Frontiers
/-!
# The progress of a search

A state of the search is valid when everything it has found goes back to the origin (`Task.Valid`).
Each part of a round leads from one valid state to another (`Task.Follows`), and what it proposes in
time has been reached afterwards. The search is written against `ArrivalStore`, and so are the proofs,
which use the laws of a `LawfulStore` only.
-/
namespace JourneyPlanner

open ArrivalStore (log round changes boardable transferable truncations Keeps)

/-! ## Goals -/

/-- At least as good as `b` on every criterion. -/
def Goal.AtLeastAsGood (a b : Goal) : Prop :=
  b.departure ≤ a.departure ∧ a.time ≤ b.time ∧ a.rides ≤ b.rides ∧ a.cost ≤ b.cost

theorem Goal.of_not_gt {x e : Goal} (h : Ordering.gt ∉ Criteria.orderings x e) : x.AtLeastAsGood e := by
  simp only [Criteria.orderings, List.mem_cons, List.not_mem_nil, or_false, not_or] at h
  obtain ⟨h1, h2, h3, h4⟩ := h
  exact ⟨Time.compare_ne_gt.1 (Ne.symm h1), Time.compare_ne_gt.1 (Ne.symm h2),
    Nat.compare_ne_gt.1 (Ne.symm h3), Int.compare_ne_gt.1 (Ne.symm h4)⟩

theorem Goal.of_not_lt {x e : Goal} (h : Ordering.lt ∉ Criteria.orderings x e) : e.AtLeastAsGood x := by
  simp only [Criteria.orderings, List.mem_cons, List.not_mem_nil, or_false, not_or] at h
  obtain ⟨h1, h2, h3, h4⟩ := h
  exact ⟨Time.compare_ne_lt.1 (Ne.symm h1), Time.compare_ne_lt.1 (Ne.symm h2),
    Nat.compare_ne_lt.1 (Ne.symm h3), Int.compare_ne_lt.1 (Ne.symm h4)⟩

theorem Goal.AtLeastAsGood.refl (a : Goal) : a.AtLeastAsGood a :=
  ⟨Time.le_refl _, Time.le_refl _, Nat.le_refl _, Int.le_refl _⟩

theorem Goal.AtLeastAsGood.trans {a b c : Goal} (h : a.AtLeastAsGood b) (h' : b.AtLeastAsGood c) : a.AtLeastAsGood c := by
  obtain ⟨h1, h2, h3, h4⟩ := h
  obtain ⟨h1', h2', h3', h4'⟩ := h'
  exact ⟨Time.le_trans h1' h1, Time.le_trans h2 h2', Nat.le_trans h3 h3', Int.le_trans h4 h4'⟩

namespace Frontier

/-- Some goal is at least as good. -/
def Covers (goals : Frontier Goal) (g : Goal) : Prop := ∃ e ∈ goals.items, e.AtLeastAsGood g

/-- Some goal is reached for a departure from `earliest` on, no later, with no more rides and at no higher cost. -/
def Arrives (goals : Frontier Goal) (earliest time : Time) (rides : Nat) (cost : Int) : Prop :=
  ∃ g ∈ goals.items, earliest ≤ g.departure ∧ g.time ≤ time ∧ g.rides ≤ rides ∧ g.cost ≤ cost

variable {goals : Frontier Goal} {g x : Goal} {xs : List Goal} {earliest time : Time} {rides : Nat} {cost : Int}

theorem Covers.insert (h : goals.Covers g) (x : Goal) : (goals.insert x).Covers g := by
  obtain ⟨e, he, hgood⟩ := h
  rcases insert_keeps (x := x) he with he | ⟨hx, hgt⟩
  · exact ⟨e, he, hgood⟩
  · exact ⟨x, hx, (Goal.of_not_gt hgt).trans hgood⟩

theorem covers_insert_self (goals : Frontier Goal) (x : Goal) : (goals.insert x).Covers x := by
  rcases insert_contains goals x with hx | ⟨e, he, hlt⟩
  · exact ⟨x, hx, .refl x⟩
  · exact ⟨e, he, Goal.of_not_lt hlt⟩

theorem Covers.foldl (h : goals.Covers g) (xs : List Goal) : (xs.foldl Frontier.insert goals).Covers g := by
  induction xs generalizing goals with
  | nil => exact h
  | cons x xs ih => exact ih (h.insert x)

theorem covers_foldl_mem (goals : Frontier Goal) (hx : x ∈ xs) : (xs.foldl Frontier.insert goals).Covers x := by
  induction xs generalizing goals with
  | nil => cases hx
  | cons y ys ih =>
    rcases List.mem_cons.1 hx with rfl | hx
    · exact (covers_insert_self goals x).foldl ys
    · exact ih _ hx

theorem Covers.arrives (h : goals.Covers g) : goals.Arrives g.departure g.time g.rides g.cost := h

namespace Arrives

theorem mono (h : goals.Arrives earliest time rides cost) {earlier later : Time} {more : Nat} {dearer : Int}
    (hearlier : earlier ≤ earliest) (hlater : time ≤ later) (hmore : rides ≤ more) (hdearer : cost ≤ dearer) :
    goals.Arrives earlier later more dearer := by
  obtain ⟨g, hg, h1, h2, h3, h4⟩ := h
  exact ⟨g, hg, Time.le_trans hearlier h1, Time.le_trans h2 hlater, Nat.le_trans h3 hmore, Int.le_trans h4 hdearer⟩

theorem foldl (h : goals.Arrives earliest time rides cost) (xs : List Goal) :
    (xs.foldl Frontier.insert goals).Arrives earliest time rides cost := by
  obtain ⟨g, hg, h1, h2, h3, h4⟩ := h
  have hcovers : goals.Covers g := ⟨g, hg, .refl g⟩
  exact (hcovers.foldl xs).arrives.mono h1 h2 h3 h4

end Arrives

end Frontier

theorem Frontier.mem_foldl_insert {goals : Frontier Goal} {xs : List Goal} {g : Goal}
    (h : g ∈ (xs.foldl Frontier.insert goals).items) : g ∈ goals.items ∨ g ∈ xs := by
  induction xs generalizing goals with
  | nil => exact .inl h
  | cons x xs ih =>
    rcases ih h with h | h
    · rcases Frontier.mem_insert_cases h with h | rfl
      · exact .inl h
      · exact .inr (by simp)
    · exact .inr (by simp [h])

namespace Task

/-- A network, settings and a request that a search can work with. -/
structure Ready (task : Task) : Prop where
  network : task.network.Sound
  settings : task.settings.Sound
  access_lt : ∀ path ∈ task.request.access, path.stop < task.network.stopCount

variable {σ : Type} [ArrivalStore σ] [LawfulStore σ]

/-! ## States of the search -/

/-- The destination is reached from the arrival by each egress path that can be taken in time, at the cost of both. -/
def GoalsDone (task : Task) (earliest : Time) (goals : Frontier Goal) (a : Arrival) : Prop :=
  ∀ path ∈ task.request.egress, path.stop = a.stop → (path.onBoard || a.onBoard) = true →
    ∀ start, path.earliestStart? a.time = some start →
      task.request.isTooLate (start + path.duration) = false →
      goals.Arrives earliest (start + path.duration) (addRides a.rides path.rides) (a.cost + path.cost)

/-- The arrivals and goals found so far, for departures from `earliest` on, all go back to the origin, and what can be
reached from the arrivals has been. -/
structure Valid (task : Task) (earliest : Time) (p : Progress σ) : Prop where
  good : LawfulStore.Good task.network.stopCount task.settings.maxRounds p.store
  traces : ∀ id a, (log p.store).get? id = .ok a → ∃ last, task.Traces (log p.store) earliest a last
  backward : ∀ id a, (log p.store).get? id = .ok a → ∀ parent, a.parent = some parent → parent < id
  goals : ∀ g ∈ p.goals.items, task.GoalTraces (log p.store) g
  goalsDone : ∀ id a, (log p.store).get? id = .ok a → task.GoalsDone earliest p.goals a

/-- An arrival that the current round may propose. -/
structure Proposal (task : Task) (earliest : Time) (p : Progress σ) (a : Arrival) : Prop where
  traces : ∃ last, task.Traces (log p.store) earliest a last
  round_eq : a.round = round p.store
  tallies : LawfulStore.Tallies σ a.rides a.round

/-- What the rest of a round may rely on after a part of it has led from `p` to `p'`. -/
structure Follows (task : Task) (earliest : Time) (p p' : Progress σ) : Prop where
  valid : task.Valid earliest p'
  round_eq : round p'.store = round p.store
  previous : (changes p'.store).previous = (changes p.store).previous
  log_extends : (log p.store).Extends (log p'.store)
  truncations_le : truncations p.store ≤ truncations p'.store
  boardable_eq : truncations p'.store = 0 → ∀ stop, boardable p'.store stop = boardable p.store stop
  keeps : truncations p'.store = 0 → ∀ first ≤ (log p.store).size,
    Keeps (LawfulStore.Heeds σ) p.store first → Keeps (LawfulStore.Heeds σ) p'.store first
  goals : ∀ t time rides cost, p.goals.Arrives t time rides cost → p'.goals.Arrives t time rides cost

/-- A proposal that is in time has been reached. -/
def Reached (task : Task) (p : Progress σ) (a : Arrival) : Prop :=
  task.request.isTooLate a.time = false →
    (log p.store).Reaches (LawfulStore.Heeds σ) a.stop a.time a.cost a.round a.onBoard

variable {task : Task} {earliest : Time} {p p' p'' : Progress σ} {a : Arrival}

theorem isTooLate_mono {t t' : Time} (h : task.request.isTooLate t' = false) (hle : t ≤ t') :
    task.request.isTooLate t = false := by
  unfold Request.isTooLate at *
  cases hlatest : task.request.latestArrival with
  | none => rfl
  | some latest =>
    rw [hlatest] at h
    simp only [Option.any_some, decide_eq_false_iff_not, Time.lt_iff] at *
    rw [Time.le_iff] at hle
    omega

omit [ArrivalStore σ] [LawfulStore σ] in
theorem GoalsDone.mono {goals goals' : Frontier Goal} (h : task.GoalsDone earliest goals a)
    (hgoals : ∀ t time rides cost, goals.Arrives t time rides cost → goals'.Arrives t time rides cost)
    {earlier : Time} (hle : earlier ≤ earliest) : task.GoalsDone earlier goals' a :=
  fun path hpath hstop honBoard start hstart hlate =>
    (hgoals _ _ _ _ (h path hpath hstop honBoard start hstart hlate)).mono hle (Time.le_refl _) (Nat.le_refl _)
      (Int.le_refl _)

omit [ArrivalStore σ] [LawfulStore σ] in
/-- Whoever leads on to the destination from the stop of the arrival, no earlier and on board only if it is, is matched
by a goal. -/
theorem GoalsDone.arrives {goals : Frontier Goal} (h : task.GoalsDone earliest goals a) {path : StreetPath}
    (hpath : path ∈ task.request.egress) (hstop : path.stop = a.stop) {onBoard : Bool}
    (hdoor : (path.onBoard || onBoard) = true) (honBoard : onBoard = true → a.onBoard = true) {start : Time}
    (hstart : a.time ≤ start) (hopen : path.IsOpen start)
    (hlate : task.request.isTooLate (start + path.duration) = false) :
    goals.Arrives earliest (start + path.duration) (addRides a.rides path.rides) (a.cost + path.cost) := by
  obtain ⟨start', hstart', hle⟩ := StreetPath.earliestStart?_mono (Time.le_refl _) hstart hopen
  have htime := Time.add_mono hle path.duration
  have hdoor' : (path.onBoard || a.onBoard) = true := by
    rcases (Bool.or_eq_true _ _).mp hdoor with h | h
    · rw [h, Bool.true_or]
    · rw [honBoard h, Bool.or_true]
  exact (h path hpath hstop hdoor' start' hstart' (isTooLate_mono hlate htime)).mono (Time.le_refl _) htime
    (Nat.le_refl _) (Int.le_refl _)

theorem Follows.refl (h : task.Valid earliest p) : task.Follows earliest p p where
  valid := h
  round_eq := rfl
  previous := rfl
  log_extends := ArrivalLog.extends_refl _
  truncations_le := Nat.le_refl _
  boardable_eq _ _ := rfl
  keeps _ _ _ h := h
  goals _ _ _ _ h := h

theorem Follows.room (h : task.Follows earliest p p') (hroom : truncations p'.store = 0) : truncations p.store = 0 :=
  Nat.le_zero.1 (hroom ▸ h.truncations_le)

theorem Follows.trans (h : task.Follows earliest p p') (h' : task.Follows earliest p' p'') :
    task.Follows earliest p p'' where
  valid := h'.valid
  round_eq := h'.round_eq.trans h.round_eq
  previous := h'.previous.trans h.previous
  log_extends := h.log_extends.trans h'.log_extends
  truncations_le := Nat.le_trans h.truncations_le h'.truncations_le
  boardable_eq hroom stop := by
    rw [h'.boardable_eq hroom, h.boardable_eq (h'.room hroom)]
  keeps hroom first hfirst hkeeps := by
    have hkeeps' := h.keeps (h'.room hroom) first hfirst hkeeps
    exact h'.keeps hroom first (Nat.le_trans hfirst h.log_extends.size_le) hkeeps'
  goals t time rides cost hg := h'.goals t time rides cost (h.goals t time rides cost hg)

theorem Proposal.mono (h : task.Proposal earliest p a) (hf : task.Follows earliest p p') :
    task.Proposal earliest p' a where
  traces := by
    obtain ⟨last, htraces⟩ := h.traces
    exact ⟨last, htraces.mono hf.log_extends (Time.le_refl _)⟩
  round_eq := h.round_eq.trans hf.round_eq.symm
  tallies := h.tallies

theorem Reached.mono (h : task.Reached p a) (hf : task.Follows earliest p p') : task.Reached p' a :=
  fun hlate => (h hlate).mono hf.log_extends id

/-! ## Proposals -/

/-- Nothing changes when a proposal is rejected. -/
theorem follows_rejected (hv : task.Valid earliest p) (stats : SearchStats) :
    task.Follows earliest p { p with stats := stats } where
  valid := ⟨hv.good, hv.traces, hv.backward, hv.goals, hv.goalsDone⟩
  round_eq := rfl
  previous := rfl
  log_extends := ArrivalLog.extends_refl _
  truncations_le := Nat.le_refl _
  boardable_eq _ _ := rfl
  keeps _ _ _ h := h
  goals _ _ _ _ h := h

omit [ArrivalStore σ] [LawfulStore σ] in
/-- Whatever can be reached from an arrival is reached once its goals have joined the others. -/
theorem goalsDone_accepted (goals : Frontier Goal) (id : Nat) :
    task.GoalsDone earliest ((task.goals earliest id a).foldl Frontier.insert goals) a := by
  intro path hpath hstop honBoard start hstart hlate
  obtain ⟨number, hnumber⟩ := List.mem_iff_getElem?.1 hpath
  have hgoal : task.goal? earliest id a (path, number) =
      some ⟨id, number, start + path.duration, addRides a.rides path.rides, a.cost + path.cost, earliest⟩ := by
    simp only [goal?]
    rw [if_pos ⟨hstop, honBoard⟩, hstart]
    simp only [hlate, Bool.false_eq_true, if_false]
  have hmem : _ ∈ task.goals earliest id a :=
    List.mem_filterMap.2 ⟨(path, number), List.mem_zipIdx_iff_getElem?.2 (by simpa using hnumber), hgoal⟩
  exact (Frontier.covers_foldl_mem goals hmem).arrives

/-- An accepted proposal joins the log, and its goals the others. -/
theorem follows_accepted (hv : task.Valid earliest p) (ha : task.Proposal earliest p a) {store : σ}
    (hgood : LawfulStore.Good task.network.stopCount task.settings.maxRounds store)
    (hacc : ArrivalStore.Accepted (LawfulStore.Heeds σ) p.store a store) (stats : SearchStats) :
    task.Follows earliest p
      { store := store
        goals := (task.goals earliest (log p.store).size a).foldl Frontier.insert p.goals
        stats := stats } := by
  obtain ⟨last, htraces⟩ := ha.traces
  have hext : (log p.store).Extends (log store) := by
    rw [hacc.log]
    exact ArrivalLog.extends_push _ _
  have hself : (log store).get? (log p.store).size = .ok a := by
    rw [hacc.log]
    exact ArrivalLog.get?_push_self
  have hgoals : ∀ t time rides cost, p.goals.Arrives t time rides cost →
      ((task.goals earliest (log p.store).size a).foldl Frontier.insert p.goals).Arrives t time rides cost :=
    fun _ _ _ _ h => h.foldl _
  refine ⟨⟨hgood, ?_, ?_, ?_, ?_⟩, hacc.round, hacc.previous, hext, hacc.truncations, hacc.boardable, hacc.keeps,
    hgoals⟩
  · intro id b hb
    rw [hacc.log] at hb
    rcases ArrivalLog.get?_push_cases hb with hb | ⟨_, rfl⟩
    · obtain ⟨last, h⟩ := hv.traces id b hb
      exact ⟨last, h.mono hext (Time.le_refl _)⟩
    · exact ⟨last, htraces.mono hext (Time.le_refl _)⟩
  · intro id b hb
    rw [hacc.log] at hb
    rcases ArrivalLog.get?_push_cases hb with hb | ⟨rfl, rfl⟩
    · exact hv.backward id b hb
    · exact fun parent hparent => htraces.parent_lt hparent
  · intro g hg
    rcases Frontier.mem_foldl_insert hg with hg | hg
    · exact (hv.goals g hg).mono hext
    · exact goalTraces_of_mem hself (htraces.mono hext (Time.le_refl _)) hg
  · intro id b hb
    rw [hacc.log] at hb
    rcases ArrivalLog.get?_push_cases hb with hb | ⟨_, rfl⟩
    · exact (hv.goalsDone id b hb).mono hgoals (Time.le_refl _)
    · exact goalsDone_accepted _ _

/-- The arrivals of the longer log that are not in the shorter one have the property. -/
def NewOnly (P : Arrival → Prop) (l l' : ArrivalLog) : Prop :=
  ∀ id a, l'.get? id = .ok a → l.get? id = .ok a ∨ P a

theorem offer_gives (hready : task.Ready) (hv : task.Valid earliest p) (ha : task.Proposal earliest p a) :
    Gives (task.offer earliest p a) fun p' => task.Follows earliest p p' ∧ task.Reached p' a ∧
      NewOnly (· = a) (log p.store) (log p'.store) := by
  obtain ⟨last, htraces⟩ := ha.traces
  have hstop := htraces.stop_lt hready.network hready.access_lt
  have hkept : NewOnly (· = a) (log p.store) (log p.store) := fun _ _ h => .inl h
  simp only [offer]
  split
  · rename_i hlate
    rw [LawfulStore.reject_eq]
    refine gives_pure ⟨follows_rejected hv _, fun h => ?_, hkept⟩
    rw [hlate] at h
    cases h
  · obtain ⟨better, hbetter, hreaches⟩ := LawfulStore.improves_gives hv.good hstop ha.round_eq ha.tallies
    unfold ArrivalStore.offer
    rw [hbetter]
    cases better with
    | false =>
      show Gives (pure _) _
      rw [LawfulStore.reject_eq]
      exact gives_pure ⟨follows_rejected hv _, fun _ => hreaches rfl, hkept⟩
    | true =>
      obtain ⟨⟨store, id⟩, haccept, rfl, hgood, hacc⟩ :=
        LawfulStore.accept_gives hv.good hstop ha.round_eq ha.tallies hbetter
      have hself : (log store).get? (log p.store).size = .ok a := by
        rw [hacc.log]
        exact ArrivalLog.get?_push_self
      show Gives (ArrivalStore.accept p.store a >>= _ >>= _) _
      rw [haccept]
      show Gives (pure _) _
      refine gives_pure ⟨follows_accepted hv ha hgood hacc _, fun _ => ?_, fun id b hb => ?_⟩
      · exact ⟨_, a, hself, rfl, Time.le_refl _, fun _ => Int.le_refl _, Nat.le_refl _, fun h => h⟩
      · have hb : (log store).get? id = .ok b := hb
        rw [hacc.log] at hb
        rcases ArrivalLog.get?_push_cases hb with hb | ⟨_, rfl⟩
        · exact .inl hb
        · exact .inr rfl

/-- All of some proposals are made, one after another. -/
theorem offerAll_gives (hready : task.Ready) (hv : task.Valid earliest p) (as : List Arrival)
    (has : ∀ a ∈ as, task.Proposal earliest p a) :
    Gives (as.foldlM (task.offer earliest) p) fun p' => task.Follows earliest p p' ∧
      (∀ a ∈ as, task.Reached p' a) ∧ NewOnly (· ∈ as) (log p.store) (log p'.store) := by
  refine gives_foldlM (P := fun done p' => task.Follows earliest p p' ∧ (∀ a ∈ done, task.Reached p' a) ∧
    NewOnly (· ∈ as) (log p.store) (log p'.store)) as p ⟨.refl hv, by simp, fun _ _ h => .inl h⟩ ?_
  rintro done a rest p' hsplit ⟨hfollows, hreached, hnew⟩
  have hmem : a ∈ as := by simp [hsplit]
  apply (offer_gives hready hfollows.valid ((has a hmem).mono hfollows)).mono
  rintro p'' ⟨hfollows', hreached', hnew'⟩
  refine ⟨hfollows.trans hfollows', fun b hb => ?_, fun id b hb => ?_⟩
  · rcases List.mem_append.1 hb with hb | hb
    · exact (hreached b hb).mono hfollows'
    · rw [List.mem_singleton.1 hb]
      exact hreached'
  · rcases hnew' id b hb with hb | rfl
    · exact hnew id b hb
    · exact .inr hmem

/-! ## Access -/

theorem seed_gives (hready : task.Ready) (hv : task.Valid earliest p) (hdeparture : earliest ∈ task.departures)
    {k : Nat} (hk : k ≤ task.settings.maxRounds) (hround : round p.store = k) :
    Gives (task.seed earliest k p) fun p' => task.Follows earliest p p' ∧
      ∀ path ∈ task.request.access, path.rides = k → ∀ start, path.earliestStart? earliest = some start →
        task.request.isTooLate (start + path.duration) = false →
        (log p'.store).Reaches (LawfulStore.Heeds σ) path.stop (start + path.duration) path.cost k path.onBoard := by
  unfold seed
  refine (offerAll_gives hready hv _ fun a ha => ?_).mono fun p' ⟨hfollows, hreached, _⟩ => ⟨hfollows, ?_⟩
  · obtain ⟨⟨path, number⟩, hmem, ha⟩ := List.mem_filterMap.1 ha
    have hpath : task.request.access[number]? = some path := by simpa using List.mem_zipIdx_iff_getElem?.1 hmem
    refine ⟨⟨none, .access hpath hdeparture (Time.le_refl _) hk ha⟩, ?_, ?_⟩
    · obtain ⟨_, _, _, rfl⟩ := accessArrival?_eq ha
      exact hround.symm
    · obtain ⟨hrides, _, _, rfl⟩ := accessArrival?_eq ha
      rw [hrides]
      exact LawfulStore.tallies_self k
  · intro path hpath hrides start hstart hlate
    obtain ⟨number, hnumber⟩ := List.mem_iff_getElem?.1 hpath
    have harrival : accessArrival? earliest k (path, number) =
        some ⟨none, path.stop, start + path.duration, path.rides, path.cost, k, .access number path.onBoard⟩ := by
      simp only [accessArrival?]
      rw [if_pos hrides, hstart]
    exact hreached _ (List.mem_filterMap.2
      ⟨(path, number), List.mem_zipIdx_iff_getElem?.2 (by simpa using hnumber), harrival⟩) hlate

end Task

end JourneyPlanner
