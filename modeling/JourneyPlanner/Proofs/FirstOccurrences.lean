/-!
# First occurrences

Where several elements of a list count as one, it is mostly the first of them that counts: `eraseDups` keeps the first
of equal elements, and `IsFirstBest` singles out the first of those that none is better than.
-/
namespace JourneyPlanner

variable {α : Type} {better : α → α → Prop} {xs : List α} {x y : α}

/-- Only an element that is new comes in, at the end. -/
theorem eraseDups_concat [BEq α] [LawfulBEq α] (xs : List α) (x : α) :
    (xs ++ [x]).eraseDups = if x ∈ xs.eraseDups then xs.eraseDups else xs.eraseDups ++ [x] := by
  rw [List.eraseDups_append]
  split
  · rename_i hmem
    simp [List.removeAll, List.mem_eraseDups.1 hmem]
  · rename_i hmem
    simp [List.removeAll, mt List.mem_eraseDups.2 hmem, List.eraseDups_cons]

/-- An element of a list that is better than those before it, while none behind it is better. -/
def IsFirstBest (better : α → α → Prop) (xs : List α) (x : α) : Prop :=
  ∃ before after, xs = before ++ x :: after ∧ (∀ y ∈ before, better x y) ∧ ∀ y ∈ after, ¬ better y x

theorem isFirstBest_singleton (x : α) : IsFirstBest better [x] x := ⟨[], [], rfl, nofun, nofun⟩

theorem IsFirstBest.concat_of_not (h : IsFirstBest better xs x) (hy : ¬ better y x) :
    IsFirstBest better (xs ++ [y]) x := by
  obtain ⟨before, after, rfl, hbefore, hafter⟩ := h
  refine ⟨before, after ++ [y], by simp, hbefore, fun z hz => ?_⟩
  rcases List.mem_append.1 hz with hz | hz
  · exact hafter z hz
  · rwa [List.mem_singleton.1 hz]

/-- In an order, a better element is the best one after all. -/
theorem IsFirstBest.concat (htrans : ∀ x y z, better x y → better y z → better x z)
    (hnot : ∀ x y z, better x y → ¬ better z y → better x z) (h : IsFirstBest better xs x) (hy : better y x) :
    IsFirstBest better (xs ++ [y]) y := by
  obtain ⟨before, after, rfl, hbefore, hafter⟩ := h
  refine ⟨before ++ x :: after, [], rfl, fun z hz => ?_, nofun⟩
  rcases List.mem_append.1 hz with hz | hz
  · exact htrans y x z hy (hbefore z hz)
  · rcases List.mem_cons.1 hz with rfl | hz
    · exact hy
    · exact hnot y x z hy (hafter z hz)

/-- It is enough to compare elements of the list. -/
theorem IsFirstBest.congr {better' : α → α → Prop} (h : IsFirstBest better xs x)
    (hiff : ∀ y ∈ xs, ∀ z ∈ xs, better y z ↔ better' y z) : IsFirstBest better' xs x := by
  obtain ⟨before, after, rfl, hbefore, hafter⟩ := h
  refine ⟨before, after, rfl, fun y hy => (hiff x (by simp) y (by simp [hy])).1 (hbefore y hy), fun y hy h => ?_⟩
  exact hafter y hy ((hiff y (by simp [hy]) x (by simp)).2 h)

end JourneyPlanner
