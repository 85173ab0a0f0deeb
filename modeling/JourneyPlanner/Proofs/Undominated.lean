import Mathlib.Data.List.Forall2
import Mathlib.Data.List.Induction
import JourneyPlanner.Proofs.Frontiers
/-!
# What is left when nothing may be worse

`undominated le xs` keeps of a list what nothing beats in a preorder `le`, and of several that are equal
in it the first. The list can be made one element at a time (`insertUndominated`), as a `Frontier` does:
what a newcomer drives out it covers itself, so nothing that has gone is missed later.
-/
namespace JourneyPlanner

variable {α : Type}

section Preorder

/-- Each element of the list that is no worse than the one with its place `x` is no better either, and comes
no earlier. -/
def Unbeaten (le : α → α → Prop) (xs : List α) (x : α × Nat) : Prop :=
  ∀ y ∈ xs.zipIdx, le y.1 x.1 → le x.1 y.1 ∧ x.2 ≤ y.2

variable {le : α → α → Prop} {xs ys : List α} {x y e : α}

/-- A new element at the end asks of the old ones only that they are not worse. -/
theorem unbeaten_concat {z : α × Nat} (hz : z ∈ xs.zipIdx) :
    Unbeaten le (xs ++ [x]) z ↔ Unbeaten le xs z ∧ (le x z.1 → le z.1 x) := by
  have hlt := (List.getElem?_eq_some_iff.1 (List.mem_zipIdx_iff_getElem?.1 hz)).1
  unfold Unbeaten
  rw [List.zipIdx_append]
  simp only [List.forall_mem_append, List.zipIdx_cons, List.zipIdx_nil, List.forall_mem_singleton, Nat.zero_add]
  exact and_congr_right fun _ => forall_congr' fun _ => and_iff_left (by omega)

/-- The new element itself must have none before it that is no worse. -/
theorem unbeaten_concat_self (hrefl : ∀ a, le a a) :
    Unbeaten le (xs ++ [x]) (x, xs.length) ↔ ¬ ∃ y ∈ xs, le y x := by
  unfold Unbeaten
  rw [List.zipIdx_append]
  simp only [List.forall_mem_append, List.zipIdx_cons, List.zipIdx_nil, List.forall_mem_singleton, Nat.zero_add]
  constructor
  · rintro ⟨hall, -⟩ ⟨y, hy, hle⟩
    obtain ⟨j, hj⟩ := List.mem_iff_getElem?.1 hy
    have hlate := (hall (y, j) (List.mem_zipIdx_iff_getElem?.2 hj) hle).2
    have hlt := (List.getElem?_eq_some_iff.1 hj).1
    omega
  · refine fun hnone => ⟨fun y hy hle => absurd ⟨y.1, ?_, hle⟩ hnone, fun _ => ⟨hrefl x, Nat.le_refl _⟩⟩
    exact List.fst_mem_of_mem_zipIdx hy

/-- Elements that stand for others and compare alike keep out the same newcomers. -/
theorem exists_le_iff {β : Type} {le' : β → β → Prop} {R : α → β → Prop} {zs : List β} {z : β}
    (h : List.Forall₂ R xs zs) (hbefore : ∀ a b, R a b → (le a x ↔ le' b z)) :
    (∃ y ∈ xs, le y x) ↔ ∃ y ∈ zs, le' y z := by
  induction h with
  | nil => simp
  | cons hab _ ih => simp [hbefore _ _ hab, ih]

variable [DecidableRel le]

instance (xs : List α) (x : α × Nat) : Decidable (Unbeaten le xs x) := inferInstanceAs (Decidable (∀ _ ∈ _, _))

variable (le) in
/-- The elements that nothing beats, and of several equal ones the first. -/
def undominated (xs : List α) : List α := (xs.zipIdx.filter fun x => Unbeaten le xs x).map (·.1)

variable (le) in
/-- Adds an element, unless one of the list is no worse, and drops those that are no better. -/
def insertUndominated (xs : List α) (x : α) : List α :=
  if ∃ y ∈ xs, le y x then xs else xs.filter (fun y => ¬ le x y) ++ [x]

theorem mem_of_mem_undominated (h : x ∈ undominated le xs) : x ∈ xs := by
  obtain ⟨z, hz, rfl⟩ := List.mem_map.1 h
  exact List.fst_mem_of_mem_zipIdx (List.mem_filter.1 hz).1

/-! ## Adding an element -/

theorem insertUndominated_sublist (h : xs.Sublist ys) : (insertUndominated le xs x).Sublist (ys ++ [x]) := by
  unfold insertUndominated
  split
  · exact h.trans (List.sublist_append_left _ _)
  · exact (List.filter_sublist.trans h).append (List.Sublist.refl _)

/-- An element that is added is comparable to none of those that stay. -/
theorem insertUndominated_pairwise (h : xs.Pairwise fun a b => ¬ le a b ∧ ¬ le b a) :
    (insertUndominated le xs x).Pairwise fun a b => ¬ le a b ∧ ¬ le b a := by
  unfold insertUndominated
  split
  · exact h
  · rename_i hnone
    refine List.pairwise_append.2 ⟨h.filter _, List.pairwise_singleton _ _, ?_⟩
    intro a ha b hb
    obtain rfl := List.mem_singleton.1 hb
    obtain ⟨ha, hnot⟩ := List.mem_filter.1 ha
    exact ⟨fun hle => hnone ⟨a, ha, hle⟩, by simpa using hnot⟩

section

variable (hrefl : ∀ a, le a a)
include hrefl

/-- Each of the old elements and the new one has one that is no worse. -/
theorem insertUndominated_covers (hy : y ∈ xs ++ [x]) : ∃ e ∈ insertUndominated le xs x, le e y := by
  unfold insertUndominated
  split
  · rename_i hsome
    rcases List.mem_append.1 hy with hy | hy
    · exact ⟨y, hy, hrefl y⟩
    · obtain rfl := List.mem_singleton.1 hy
      exact hsome
  · rcases List.mem_append.1 hy with hy | hy
    · by_cases hle : le x y
      · exact ⟨x, by simp, hle⟩
      · exact ⟨y, List.mem_append_left _ (List.mem_filter.2 ⟨hy, by simpa using hle⟩), hrefl y⟩
    · exact ⟨y, List.mem_append_right _ hy, hrefl y⟩

variable (htrans : ∀ a b c, le a b → le b c → le a c)
include htrans

/-! ## Adding all elements -/

/-- One more element at the end either has one before it that is no worse, or drives out what is no better. -/
theorem undominated_concat : undominated le (xs ++ [x]) =
    if ∃ y ∈ xs, le y x then undominated le xs else (undominated le xs).filter (fun y => ¬ le x y) ++ [x] := by
  have hself : Unbeaten le (xs ++ [x]) (x, xs.length) ↔ ¬ ∃ y ∈ xs, le y x := unbeaten_concat_self hrefl
  unfold undominated
  rw [List.zipIdx_append, List.filter_append, List.map_append, List.zipIdx_singleton, Nat.zero_add]
  split
  · rename_i hsome
    obtain ⟨y, hy, hle⟩ := hsome
    obtain ⟨j, hj⟩ := List.mem_iff_getElem?.1 hy
    have hnot : ¬ Unbeaten le (xs ++ [x]) (x, xs.length) := fun h => hself.1 h ⟨y, hy, hle⟩
    rw [List.filter_cons_of_neg (by simpa using hnot), List.filter_nil, List.map_nil, List.append_nil]
    refine congrArg _ (List.filter_congr fun z hz => decide_eq_decide.2 ?_)
    -- What the new element is no worse than is no better than the one before it.
    refine (unbeaten_concat hz).trans (and_iff_left_of_imp fun hz' hxz => ?_)
    have hyz := htrans y x z.1 hle hxz
    exact htrans _ _ _ (hz' (y, j) (List.mem_zipIdx_iff_getElem?.2 hj) hyz).1 hle
  · rename_i hnone
    rw [List.filter_cons_of_pos (by simpa using hself.2 hnone), List.filter_nil, List.filter_map, List.filter_filter]
    refine congrArg (fun l => List.map Prod.fst l ++ [x]) (List.filter_congr fun z hz => ?_)
    have hzx : ¬ le z.1 x := fun h => hnone ⟨z.1, List.fst_mem_of_mem_zipIdx hz, h⟩
    simp only [unbeaten_concat hz, Function.comp_apply, hzx, imp_false, Bool.decide_and, Bool.and_comm]

theorem undominated_covers (hy : y ∈ xs) : ∃ e ∈ undominated le xs, le e y := by
  induction xs using List.reverseRecOn generalizing y with
  | nil => cases hy
  | append_singleton xs x ih =>
    rw [undominated_concat hrefl htrans]
    rcases List.mem_append.1 hy with hy | hy
    · obtain ⟨e, he, hle⟩ := ih hy
      split
      · exact ⟨e, he, hle⟩
      · by_cases hxe : le x e
        · exact ⟨x, by simp, htrans _ _ _ hxe hle⟩
        · exact ⟨e, List.mem_append_left _ (List.mem_filter.2 ⟨he, by simpa using hxe⟩), hle⟩
    · obtain rfl := List.mem_singleton.1 hy
      split
      · rename_i hsome
        obtain ⟨z, hz, hle⟩ := hsome
        obtain ⟨e, he, hle'⟩ := ih hz
        exact ⟨e, he, htrans _ _ _ hle' hle⟩
      · exact ⟨y, by simp, hrefl y⟩

/-- A newcomer finds one that is no worse among the undominated elements if it finds one at all. -/
theorem exists_undominated_le_iff : (∃ y ∈ undominated le xs, le y x) ↔ ∃ y ∈ xs, le y x := by
  constructor
  · rintro ⟨y, hy, hle⟩
    exact ⟨y, mem_of_mem_undominated hy, hle⟩
  · rintro ⟨y, hy, hle⟩
    obtain ⟨e, he, hle'⟩ := undominated_covers hrefl htrans hy
    exact ⟨e, he, htrans _ _ _ hle' hle⟩

/-- The undominated elements of a list are made from those of the list without its last element. -/
theorem insertUndominated_undominated : insertUndominated le (undominated le xs) x = undominated le (xs ++ [x]) := by
  rw [undominated_concat hrefl htrans]
  unfold insertUndominated
  simp only [exists_undominated_le_iff hrefl htrans]

end

section Forall₂

variable {β : Type} {le' : β → β → Prop} [DecidableRel le'] {R : α → β → Prop} {zs : List β} {z : β}

/-- A newcomer drives out the same elements of those that stand for others and compare alike. -/
theorem insertUndominated_forall₂ (h : List.Forall₂ R xs zs) (hxz : R x z) (hbefore : ∀ a b, R a b → (le a x ↔ le' b z))
    (hafter : ∀ a b, R a b → (le x a ↔ le' z b)) :
    List.Forall₂ R (insertUndominated le xs x) (insertUndominated le' zs z) := by
  have hiff := exists_le_iff h hbefore
  unfold insertUndominated
  split
  · rename_i hsome
    rw [if_pos (hiff.1 hsome)]
    exact h
  · rename_i hnone
    rw [if_neg fun hsome => hnone (hiff.2 hsome)]
    refine List.rel_append (List.rel_filter (fun a b hab => ?_) h) (.cons hxz .nil)
    simp [hafter a b hab]

end Forall₂

end Preorder

/-! ## Frontiers -/

section Criteria

variable [Criteria α]

/-- The first entry is worse than the second on no criterion. -/
def Criteria.NoWorse (a b : α) : Prop := Ordering.gt ∉ Criteria.orderings a b

instance (a b : α) : Decidable (Criteria.NoWorse a b) := inferInstanceAs (Decidable (¬ _))

/-- Each criterion is a total preorder. -/
class LawfulCriteria (α : Type) [Criteria α] : Prop where
  refl : ∀ a : α, Criteria.NoWorse a a
  trans : ∀ a b c : α, Criteria.NoWorse a b → Criteria.NoWorse b c → Criteria.NoWorse a c
  /-- An entry is better than another one on some criterion if that one is worse on it. -/
  lt_mem_iff : ∀ a b : α, Ordering.lt ∈ Criteria.orderings a b ↔ ¬ Criteria.NoWorse b a

/-- The entries are compared on these criteria, each of which orders them totally. -/
structure Criteria.IsProduct (criteria : List (α → α → Ordering)) : Prop where
  total : ∀ c ∈ criteria, Std.TransCmp c
  orderings_eq : ∀ a b : α, Criteria.orderings a b = criteria.map fun c => c a b

section Product

variable {criteria : List (α → α → Ordering)} {a b : α}

theorem Criteria.IsProduct.mem_orderings (h : Criteria.IsProduct criteria) {o : Ordering} :
    o ∈ Criteria.orderings a b ↔ ∃ c ∈ criteria, c a b = o := by
  rw [h.orderings_eq, List.mem_map]

theorem Criteria.IsProduct.noWorse_iff (h : Criteria.IsProduct criteria) :
    Criteria.NoWorse a b ↔ ∀ c ∈ criteria, c a b ≠ .gt := by
  rw [Criteria.NoWorse, h.mem_orderings]
  simp only [not_exists, not_and, ne_eq]

theorem LawfulCriteria.of_isProduct (h : Criteria.IsProduct criteria) : LawfulCriteria α where
  refl a := by
    refine h.noWorse_iff.2 fun c hc => ?_
    have := h.total c hc
    have hself : c a a = .eq := Std.ReflCmp.compare_self
    rw [hself]
    decide
  trans a b d hab hbd := by
    rw [h.noWorse_iff] at *
    intro c hc
    have := h.total c hc
    exact Std.TransCmp.le_trans (hab c hc) (hbd c hc)
  lt_mem_iff a b := by
    rw [Criteria.NoWorse, Classical.not_not, h.mem_orderings, h.mem_orderings]
    refine exists_congr fun c => and_congr_right fun hc => ?_
    have := h.total c hc
    exact Std.OrientedCmp.gt_iff_lt.symm

end Product

variable [LawfulCriteria α] {f : Frontier α} {x e : α}

theorem dominance_eq_dominates_iff :
    dominance x e = .dominates ↔ ¬ Criteria.NoWorse e x ∧ Criteria.NoWorse x e := by
  rw [← LawfulCriteria.lt_mem_iff, Criteria.NoWorse]
  simp only [dominance, Dominance.ofOrderings, ← List.contains_iff_mem]
  split <;> simp_all

theorem dominance_eq_incomparable_iff :
    dominance x e = .incomparable ↔ ¬ Criteria.NoWorse e x ∧ ¬ Criteria.NoWorse x e := by
  rw [← LawfulCriteria.lt_mem_iff, Criteria.NoWorse]
  simp only [dominance, Dominance.ofOrderings, ← List.contains_iff_mem]
  split <;> simp_all

namespace Frontier

/-- A frontier takes in what none of its entries is as good as on every criterion. -/
theorem admits_iff : f.admits x = true ↔ ¬ ∃ e ∈ f.items, Criteria.NoWorse e x := by
  simp only [admits, List.all_eq_true, Bool.or_eq_true, beq_iff_eq, dominance_eq_dominates_iff,
    dominance_eq_incomparable_iff, not_exists, not_and]
  refine forall₂_congr fun e _ => ?_
  by_cases h : Criteria.NoWorse x e <;> simp [h]

theorem items_insert : (f.insert x).items = insertUndominated Criteria.NoWorse f.items x := by
  unfold insert insertUndominated
  by_cases h : f.admits x = true
  · have hnone := admits_iff.1 h
    rw [if_pos h, if_neg hnone]
    refine congrArg (· ++ [x]) (List.filter_congr fun e he => ?_)
    have hnot : ¬ Criteria.NoWorse e x := fun hle => hnone ⟨e, he, hle⟩
    rw [Bool.eq_iff_iff, bne_iff_ne, ne_eq, dominance_eq_dominates_iff, decide_eq_true_iff, and_iff_right hnot]
  · rw [if_neg h, if_pos (Classical.not_not.1 fun hnone => h (admits_iff.2 hnone))]

end Frontier

end Criteria

namespace Frontier

/-! ## Dropping an entry -/

variable {le : α → α → Bool} {xs : List α} {f : Frontier α}

theorem greatest_eq_none (h : greatest le xs = none) : xs = [] := by
  cases xs with
  | nil => rfl
  | cons x xs =>
    simp only [greatest] at h
    split at h
    · cases h
    · split at h <;> cases h

/-- The entry found has the greatest key, if the order goes by the key first. -/
theorem greatest_spec {i : Nat} {x : α} (key : α → Int) (hle : ∀ a b, le a b = true → key a ≤ key b)
    (hnot : ∀ a b, le a b = false → key b ≤ key a) (h : greatest le xs = some (i, x)) :
    xs[i]? = some x ∧ ∀ y ∈ xs, key y ≤ key x := by
  induction xs generalizing i x with
  | nil => cases h
  | cons y ys ih =>
    simp only [greatest] at h
    cases hrest : greatest le ys with
    | none =>
      rw [hrest] at h
      cases h
      rw [greatest_eq_none hrest]
      exact ⟨rfl, by simp⟩
    | some found =>
      obtain ⟨j, z⟩ := found
      obtain ⟨hz, hall⟩ := ih hrest
      simp only [hrest] at h
      cases hyz : le y z with
      | true =>
        have hyz' := hle y z hyz
        rw [hyz, if_pos rfl] at h
        cases h
        exact ⟨hz, List.forall_mem_cons.2 ⟨hyz', hall⟩⟩
      | false =>
        have hzy := hnot y z hyz
        rw [hyz, if_neg (by simp)] at h
        cases h
        exact ⟨rfl, List.forall_mem_cons.2 ⟨Int.le_refl _, fun w hw => Int.le_trans (hall w hw) hzy⟩⟩

/-- Dropping takes away one entry, whose key none exceeds. -/
theorem dropGreatest_spec (key : α → Int) (hle : ∀ a b, le a b = true → key a ≤ key b)
    (hnot : ∀ a b, le a b = false → key b ≤ key a) (hne : f.items ≠ []) :
    ∃ (i : Nat) (x : α), f.items[i]? = some x ∧ (∀ y ∈ f.items, key y ≤ key x) ∧
      (f.dropGreatest le).items = f.items.eraseIdx i := by
  unfold dropGreatest
  cases h : greatest le f.items with
  | none => exact absurd (greatest_eq_none h) hne
  | some found =>
    obtain ⟨hx, hall⟩ := greatest_spec key hle hnot h
    exact ⟨found.1, found.2, hx, hall, rfl⟩

end Frontier

end JourneyPlanner
