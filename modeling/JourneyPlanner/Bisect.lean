/-!
# Bisection

`bisect n before` finds where a row of `n` things stops satisfying `before`, when those that satisfy
it come first, and asks about at most `log n` of them.
-/
namespace JourneyPlanner

/-- The bisection of the part of the row between `lo` and `hi`. -/
def bisectBetween (before : Nat → Bool) (lo hi : Nat) : Nat :=
  if lo < hi then
    let mid := (lo + hi) / 2
    if before mid then bisectBetween before (mid + 1) hi else bisectBetween before lo mid
  else lo
termination_by hi - lo

/-- The number of things that satisfy `before`, when all of them come first. -/
def bisect (n : Nat) (before : Nat → Bool) : Nat := bisectBetween before 0 n

theorem bisectBetween_spec (before : Nat → Bool) (lo hi : Nat) (hle : lo ≤ hi)
    (hmono : ∀ i j, i ≤ j → before j = true → before i = true) :
    lo ≤ bisectBetween before lo hi ∧ bisectBetween before lo hi ≤ hi ∧
      (∀ i, lo ≤ i → i < bisectBetween before lo hi → before i = true) ∧
      (∀ i, bisectBetween before lo hi ≤ i → i < hi → before i = false) := by
  fun_induction bisectBetween before lo hi with
  | case1 lo hi hlt mid hmid ih =>
    -- The middle satisfies `before`, and so does everything in front of it.
    obtain ⟨h1, h2, h3, h4⟩ := ih (by omega)
    refine ⟨by omega, h2, fun i hi1 hi2 => ?_, h4⟩
    by_cases h : i ≤ mid
    · exact hmono i mid h hmid
    · exact h3 i (by omega) hi2
  | case2 lo hi hlt mid hmid ih =>
    -- The middle does not, so nothing after it does.
    obtain ⟨h1, h2, h3, h4⟩ := ih (by omega)
    refine ⟨h1, by omega, h3, fun i hi1 hi2 => ?_⟩
    by_cases h : i < mid
    · exact h4 i hi1 h
    · cases hb : before i with
      | false => rfl
      | true => exact absurd (hmono mid i (by omega) hb) hmid
  | case3 lo hi hlt =>
    -- Nothing lies between the ends.
    exact ⟨Nat.le_refl _, hle, fun i h1 h2 => absurd h2 (by omega), fun i h1 h2 => absurd h2 (by omega)⟩

end JourneyPlanner
