import JourneyPlanner.Frontier
import JourneyPlanner.Time
/-!
# Inserting into a frontier

What a frontier refuses is no better on any criterion than one of its entries. An entry that has to go
is no better than the one that comes.
-/
namespace JourneyPlanner

section Criteria

variable {α : Type} [Criteria α] {x e : α}

theorem dominance_eq_dominates (h : dominance x e = .dominates) : Ordering.gt ∉ Criteria.orderings x e := by
  simp only [dominance, Dominance.ofOrderings] at h
  split at h
  · rename_i _ hgt
    simpa [List.contains_iff_mem] using hgt
  all_goals cases h

theorem dominance_of_not_better (h1 : dominance x e ≠ .dominates) (h2 : dominance x e ≠ .incomparable) :
    Ordering.lt ∉ Criteria.orderings x e := by
  simp only [dominance, Dominance.ofOrderings] at h1 h2
  intro hlt
  rw [List.contains_iff_mem.2 hlt] at h1 h2
  cases hgt : (Criteria.orderings x e).contains .gt with
  | true => exact h2 (by rw [hgt])
  | false => exact h1 (by rw [hgt])

namespace Frontier

variable {f : Frontier α}

theorem mem_insert_cases (h : e ∈ (f.insert x).items) : e ∈ f.items ∨ e = x := by
  simp only [insert] at h
  split at h
  · rcases List.mem_append.1 h with h | h
    · exact .inl (List.mem_filter.1 h).1
    · exact .inr (List.mem_singleton.1 h)
  · exact .inl h

theorem insert_of_admits (h : f.admits x = true) :
    (f.insert x).items = f.items.filter (fun e => dominance x e != .dominates) ++ [x] := by
  unfold insert
  rw [if_pos h]

/-- An entry that has to go is no better than the one that comes. -/
theorem insert_keeps (h : e ∈ f.items) : e ∈ (f.insert x).items ∨
    x ∈ (f.insert x).items ∧ Ordering.gt ∉ Criteria.orderings x e := by
  unfold insert
  split
  · by_cases hd : dominance x e = .dominates
    · exact .inr ⟨by simp, dominance_eq_dominates hd⟩
    · refine .inl (List.mem_append_left _ (List.mem_filter.2 ⟨h, ?_⟩))
      simpa using hd
  · exact .inl h

/-- What is refused is no better than an entry. -/
theorem not_admits (h : f.admits x = false) : ∃ e ∈ f.items, Ordering.lt ∉ Criteria.orderings x e := by
  simp only [admits] at h
  obtain ⟨e, he, hnot⟩ := List.all_eq_false.1 h
  refine ⟨e, he, dominance_of_not_better ?_ ?_⟩
  · intro hd
    simp [hd] at hnot
  · intro hd
    simp [hd] at hnot

theorem insert_contains (f : Frontier α) (x : α) :
    x ∈ (f.insert x).items ∨ ∃ e ∈ (f.insert x).items, Ordering.lt ∉ Criteria.orderings x e := by
  unfold insert
  split
  · exact .inl (by simp)
  · rename_i h
    exact .inr (not_admits (by simpa using h))

end Frontier

end Criteria

theorem Time.compare_ne_gt {a b : Time} : compare a b ≠ .gt ↔ a ≤ b := Int.compare_ne_gt

theorem Time.compare_ne_lt {a b : Time} : compare a b ≠ .lt ↔ b ≤ a := Int.compare_ne_lt

end JourneyPlanner
