import JourneyPlanner.Proofs.FrontierHistory
import JourneyPlanner.Search.Rounds
/-!
# A frontier is the Pareto frontier of its history

A frontier judges a newcomer by the entries it still has. Where each criterion is a total order, what
those say is what all entries ever offered say (`Frontier.Sifts`): an entry that was refused or had to go
has one left that is no worse, and what it would have kept out that one keeps out.
-/
namespace JourneyPlanner

variable {α : Type} [Criteria α]

section Lawful

variable [LawfulCriteria α] {a b x z : α} {xs ys : List α}

theorem dominance_eq_equal_iff : dominance a b = .equal ↔ Criteria.NoWorse a b ∧ Criteria.NoWorse b a := by
  rw [← Classical.not_not (a := Criteria.NoWorse b a), ← LawfulCriteria.lt_mem_iff, Criteria.NoWorse]
  simp only [dominance, Dominance.ofOrderings, ← List.contains_iff_mem]
  split <;> simp_all

theorem noWorse_iff_dominance : Criteria.NoWorse a b ↔ dominance a b = .dominates ∨ dominance a b = .equal := by
  rw [dominance_eq_dominates_iff, dominance_eq_equal_iff]
  by_cases h : Criteria.NoWorse b a <;> simp [h]

/-- Nothing beats an entry if no other one dominates it and no earlier one equals it. -/
theorem unbeaten_iff_dominance {x : α × Nat} : Unbeaten Criteria.NoWorse xs x ↔
    (∀ y ∈ xs, dominance y x.1 ≠ .dominates) ∧ ∀ y ∈ xs.take x.2, dominance y x.1 ≠ .equal := by
  constructor
  · intro h
    refine ⟨fun y hy hdom => ?_, fun y hy heq => ?_⟩
    · obtain ⟨i, hi⟩ := List.mem_iff_getElem?.1 hy
      obtain ⟨hnot, hle⟩ := dominance_eq_dominates_iff.1 hdom
      exact hnot (h (y, i) (List.mem_zipIdx_iff_getElem?.2 hi) hle).1
    · obtain ⟨i, hi, hget⟩ := List.mem_take_iff_getElem.1 hy
      have hmem : (y, i) ∈ xs.zipIdx := List.mem_zipIdx_iff_getElem?.2 (by rw [← hget, List.getElem?_eq_getElem])
      have hlate := (h (y, i) hmem (dominance_eq_equal_iff.1 heq).1).2
      simp only at hlate
      omega
  · rintro ⟨hdom, heq⟩ ⟨y, i⟩ hy hle
    have hget := List.mem_zipIdx_iff_getElem?.1 hy
    have hback : Criteria.NoWorse x.1 y := by
      refine Classical.not_not.1 fun hnot => ?_
      exact hdom y (List.mem_of_getElem? hget) (dominance_eq_dominates_iff.2 ⟨hnot, hle⟩)
    refine ⟨hback, Nat.le_of_not_lt fun hlt => ?_⟩
    refine heq y ?_ (dominance_eq_equal_iff.2 ⟨hle, hback⟩)
    exact List.mem_of_getElem? (by rw [List.getElem?_take_of_lt hlt]; exact hget)

/-- Something equal to `z` is left if there was something equal to it and nothing that dominates it. Whether
that is so does not depend on any order. -/
theorem exists_undominated_equal_iff : (∃ x ∈ undominated Criteria.NoWorse xs, dominance x z = .equal) ↔
    (∃ x ∈ xs, dominance x z = .equal) ∧ ∀ y ∈ xs, dominance y z ≠ .dominates := by
  constructor
  · rintro ⟨x, hx, heq⟩
    obtain ⟨w, hw, rfl⟩ := List.mem_map.1 hx
    obtain ⟨hmem, hunbeaten⟩ := List.mem_filter.1 hw
    refine ⟨⟨w.1, List.fst_mem_of_mem_zipIdx hmem, heq⟩, fun y hy hdom => ?_⟩
    obtain ⟨hxz, hzx⟩ := dominance_eq_equal_iff.1 heq
    obtain ⟨hnot, hyz⟩ := dominance_eq_dominates_iff.1 hdom
    refine (unbeaten_iff_dominance.1 (of_decide_eq_true hunbeaten)).1 y hy (dominance_eq_dominates_iff.2 ⟨?_, ?_⟩)
    · exact fun hxy => hnot (LawfulCriteria.trans _ _ _ hzx hxy)
    · exact LawfulCriteria.trans _ _ _ hyz hzx
  · rintro ⟨⟨x, hx, heq⟩, hnone⟩
    obtain ⟨e, he, hex⟩ := undominated_covers LawfulCriteria.refl LawfulCriteria.trans hx
    have hez := LawfulCriteria.trans _ _ _ hex (dominance_eq_equal_iff.1 heq).1
    exact ⟨e, he, (noWorse_iff_dominance.1 hez).resolve_left (hnone e (mem_of_mem_undominated he))⟩

end Lawful

namespace Frontier

/-! ## Offering entries -/

/-- Adds an entry, unless one of the frontier dominates or equals it, and drops those it dominates. The second
result says whether the entry was added. -/
def offer (f : Frontier α) (x : α) : Frontier α × Bool :=
  if f.admits x then (⟨f.items.filter (fun e => dominance x e != .dominates) ++ [x]⟩, true) else (f, false)

/-- Offers some entries one by one. -/
def offerAll (f : Frontier α) : List α → Frontier α × List Bool
  | [] => (f, [])
  | x :: xs =>
    let (next, added) := f.offer x
    let (last, answers) := next.offerAll xs
    (last, added :: answers)

theorem offer_eq (f : Frontier α) (x : α) : f.offer x = (f.insert x, f.admits x) := by
  unfold offer insert
  cases f.admits x <;> rfl

theorem offerAll_concat (f : Frontier α) (xs : List α) (x : α) : f.offerAll (xs ++ [x]) =
    ((f.offerAll xs).1.insert x, (f.offerAll xs).2 ++ [(f.offerAll xs).1.admits x]) := by
  induction xs generalizing f with
  | nil =>
    simp only [List.nil_append, offerAll, offer_eq]
  | cons y ys ih =>
    simp only [List.cons_append, offerAll, ih]

theorem offerAll_fst (f : Frontier α) (xs : List α) : (f.offerAll xs).1 = xs.foldl insert f := by
  induction xs generalizing f with
  | nil => rfl
  | cons x xs ih =>
    simp only [offerAll, offer_eq, List.foldl_cons]
    exact ih _

/-- What a frontier and its answers are to the entries offered to it one by one. -/
structure Sifts (xs : List α) (result : Frontier α × List Bool) : Prop where
  inserts : result.1 = xs.foldl insert empty
  /-- What is left are, in their order, those that none dominates and no earlier one equals. -/
  items_eq : result.1.items = (xs.zipIdx.filter fun x : α × Nat =>
    (∀ y ∈ xs, dominance y x.1 ≠ .dominates) ∧ ∀ y ∈ xs.take x.2, dominance y x.1 ≠ .equal).map (·.1)
  /-- An entry is added if none offered before it, kept or not, dominates or equals it. -/
  answers_eq : result.2 = xs.zipIdx.map fun x : α × Nat =>
    decide (¬ ∃ y ∈ xs.take x.2, dominance y x.1 = .dominates ∨ dominance y x.1 = .equal)
  /-- In another order the same is left, up to entries that are equal. -/
  unordered : ∀ ys : List α, ys.Perm xs → ∀ z : α,
    (∃ x ∈ result.1.items, dominance x z = .equal) ↔ ∃ y ∈ (ys.foldl insert empty).items, dominance y z = .equal

section Lawful

variable [LawfulCriteria α]

/-- The frontier of some entries has the undominated ones. -/
theorem items_foldl_insert (xs : List α) : (xs.foldl insert empty).items = undominated Criteria.NoWorse xs := by
  induction xs using List.reverseRecOn with
  | nil => rfl
  | append_singleton xs x ih =>
    rw [List.foldl_append, List.foldl_cons, List.foldl_nil, items_insert, ih,
      insertUndominated_undominated LawfulCriteria.refl LawfulCriteria.trans]

/-- The frontier of some entries takes in what none of them is as good as, although some of them have gone. -/
theorem admits_foldl_insert (xs : List α) (x : α) : (xs.foldl insert empty).admits x =
    decide (¬ ∃ y ∈ xs, dominance y x = .dominates ∨ dominance y x = .equal) := by
  rw [Bool.eq_iff_iff, decide_eq_true_iff, admits_iff, items_foldl_insert,
    exists_undominated_le_iff LawfulCriteria.refl LawfulCriteria.trans]
  simp only [noWorse_iff_dominance]

theorem answers_offerAll (xs : List α) : (empty.offerAll xs).2 = xs.zipIdx.map fun x : α × Nat =>
    decide (¬ ∃ y ∈ xs.take x.2, dominance y x.1 = .dominates ∨ dominance y x.1 = .equal) := by
  induction xs using List.reverseRecOn with
  | nil => rfl
  | append_singleton xs x ih =>
    rw [offerAll_concat, ih, offerAll_fst, admits_foldl_insert, List.zipIdx_append, List.map_append,
      List.zipIdx_singleton, Nat.zero_add, List.map_singleton, List.take_left]
    -- What comes before an old entry is what came before it without the new one.
    refine congrArg (· ++ _) (List.map_congr_left fun z hz => ?_)
    have hlt := (List.getElem?_eq_some_iff.1 (List.mem_zipIdx_iff_getElem?.1 hz)).1
    rw [List.take_append_of_le_length (Nat.le_of_lt hlt)]

theorem sifts_offerAll (xs : List α) : Sifts xs (empty.offerAll xs) where
  inserts := offerAll_fst _ _
  items_eq := by
    rw [offerAll_fst, items_foldl_insert, undominated]
    simp only [unbeaten_iff_dominance]
  answers_eq := answers_offerAll xs
  unordered ys hys z := by
    rw [offerAll_fst, items_foldl_insert, items_foldl_insert, exists_undominated_equal_iff,
      exists_undominated_equal_iff]
    simp only [hys.mem_iff]

end Lawful

end Frontier

/-! ## Products of total orders -/

/-- What arrivals at the destination are compared on. A late departure is better than an early one. -/
def Goal.criteria : List (Goal → Goal → Ordering) :=
  [fun a b => compareOn departure b a, compareOn time, compareOn rides, compareOn cost]

theorem Goal.isProduct : Criteria.IsProduct criteria where
  total := by
    simp only [criteria, List.forall_mem_cons]
    exact ⟨.opposite, inferInstance, inferInstance, inferInstance, by simp⟩
  orderings_eq _ _ := rfl

/-- Where entries are compared on finitely many total orders, as those of a stop and of the destination are,
a frontier sifts all that are offered to it. -/
theorem Frontier.product_sifts :
    Criteria.IsProduct FrontierEntry.criteria ∧ Criteria.IsProduct Goal.criteria ∧
      ∀ {β : Type} [Criteria β] (criteria : List (β → β → Ordering)), Criteria.IsProduct criteria →
        ∀ xs : List β, Sifts xs (empty.offerAll xs) := by
  refine ⟨FrontierEntry.isProduct, Goal.isProduct, fun criteria h xs => ?_⟩
  have := LawfulCriteria.of_isProduct h
  exact sifts_offerAll xs

/-- A later departure drives out the first goal. What equals that one is refused afterwards as before. -/
theorem Frontier.four_goals_sifted :
    let goals : List Goal :=
      [⟨0, 0, .hms 9 0 0, 1, 100, .hms 8 0 0⟩, ⟨1, 0, .hms 9 0 0, 1, 100, .hms 8 5 0⟩,
        ⟨2, 0, .hms 9 0 0, 1, 100, .hms 8 0 0⟩, ⟨3, 0, .hms 8 50 0, 2, 100, .hms 8 0 0⟩]
    Criteria.IsProduct Goal.criteria ∧ Sifts goals (empty.offerAll goals) ∧
      empty.offerAll goals = (⟨[goals[1], goals[3]]⟩, [true, true, false, true]) :=
  ⟨Goal.isProduct, product_sifts.2.2 _ Goal.isProduct _, by decide +kernel⟩

end JourneyPlanner
