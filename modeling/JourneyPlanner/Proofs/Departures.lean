import JourneyPlanner.Proofs.Clock
import JourneyPlanner.Search.Rounds
/-!
# The departures of a range search

A range search counts down from the end of its window to the earliest departure. All steps of the
countdown are equal, except that the last one may be shorter (`CountsDown`). So every instant of the
window has a departure less than one step before it. That holds for every window and step, also where
the times stop at the end of their range: the countdown goes on only while it is above the earliest
departure, and there a step back that is cut off would end below it anyway.
-/
namespace JourneyPlanner

/-- A list of times that falls from `latest` to `earliest`, `step` seconds at a time. -/
structure CountsDown (earliest latest : Time) (step : Int) (ds : List Time) : Prop where
  head : ds.head? = some latest
  last : ds.getLast? = some earliest
  falls : ds.Pairwise fun a b => b < a
  /-- Before the last two times, neighbours are one step apart. -/
  gap : ∀ i, (h : i + 2 < ds.length) → ds[i] - ds[i + 1] = step
  /-- The last two times are at most one step apart. -/
  lastGap : ∀ i, (h : i + 2 = ds.length) → ds[i] - ds[i + 1] ≤ step
  /-- Every instant has a time at or before it, less than one step away. -/
  covers : ∀ t, earliest ≤ t → t ≤ latest → ∃ d ∈ ds, d ≤ t ∧ t - d < step
  /-- The steps it takes from one end to the other, a part of a step counted in full. -/
  length : (ds.length : Int) = (latest - earliest + step - 1) / step + 1

namespace CountsDown

variable {earliest latest t : Time} {step : Int} {ds : List Time}

/-- A window without length has one departure. -/
theorem singleton (hstep : 0 < step) : CountsDown earliest earliest step [earliest] where
  head := rfl
  last := rfl
  falls := List.pairwise_singleton _ _
  gap i h := absurd h (by simp)
  lastGap i h := absurd h (by simp)
  covers t hlow hhigh := by
    rw [Time.le_iff] at hlow hhigh
    refine ⟨earliest, List.mem_singleton.2 rfl, Time.le_iff.2 hlow, ?_⟩
    rw [Time.sub_time]
    omega
  length := by
    have hdiv : (earliest - earliest + step - 1) / step = 0 := by
      rw [Time.sub_time]
      exact Int.ediv_eq_zero_of_lt (by omega) (by omega)
    rw [hdiv]
    rfl

/-- A window of at most one step has its two ends. -/
theorem pair (hlt : earliest < t) (hle : t - earliest ≤ step) :
    CountsDown earliest t step [t, earliest] where
  head := rfl
  last := rfl
  falls := by simpa using hlt
  gap i h := absurd h (by simp)
  lastGap i h := by
    obtain rfl : i = 0 := by simpa using h
    exact hle
  covers instant hlow hhigh := by
    rw [Time.lt_iff] at hlt
    rw [Time.sub_time] at hle
    rw [Time.le_iff] at hlow hhigh
    rcases Int.lt_or_le instant.secs t.secs with hbelow | habove
    · refine ⟨earliest, by simp, Time.le_iff.2 hlow, ?_⟩
      rw [Time.sub_time]
      omega
    · refine ⟨t, by simp, Time.le_iff.2 habove, ?_⟩
      rw [Time.sub_time]
      omega
  length := by
    have hdiv : (t - earliest + step - 1) / step = 1 := by
      rw [Time.lt_iff] at hlt
      rw [Time.sub_time] at hle ⊢
      have hsplit : t.secs - earliest.secs + step - 1 = (t.secs - earliest.secs - 1) + step * 1 := by omega
      rw [hsplit, Int.add_mul_ediv_left _ _ (by omega), Int.ediv_eq_zero_of_lt (by omega) (by omega)]
      rfl
    rw [hdiv]
    rfl

/-- A countdown begun one step earlier in the list, which is one step later in time. -/
theorem cons (h : CountsDown earliest latest step ds) (hlt : earliest < latest) (hstep : 0 < step)
    (hgap : t - latest = step) : CountsDown earliest t step (t :: ds) := by
  obtain ⟨rest, rfl⟩ := List.head?_eq_some_iff.1 h.head
  have hlater : latest < t := by
    rw [Time.sub_time] at hgap
    rw [Time.lt_iff]
    omega
  have hmore : rest ≠ [] := by
    rintro rfl
    have hends : latest = earliest := Option.some.inj h.last
    rw [Time.lt_iff, hends] at hlt
    omega
  have hfalls := List.pairwise_cons.1 h.falls
  refine ⟨rfl, ?_, ?_, ?_, ?_, ?_, ?_⟩
  · rw [List.getLast?_cons_cons]
    exact h.last
  · refine List.pairwise_cons.2 ⟨fun d hd => ?_, h.falls⟩
    rcases List.mem_cons.1 hd with rfl | hd
    · exact hlater
    · exact Int.lt_trans (hfalls.1 d hd) hlater
  · intro i hi
    cases i with
    | zero => exact hgap
    | succ i => exact h.gap i (Nat.lt_of_succ_lt_succ hi)
  · intro i hi
    cases i with
    | zero => exact absurd hi (by simpa using hmore)
    | succ i => exact h.lastGap i (Nat.succ.inj hi)
  · -- An instant after `latest` is less than one step after it; any other is covered already.
    intro instant hlow hhigh
    rcases Time.le_total instant latest with hbelow | habove
    · obtain ⟨d, hd, hle, hnear⟩ := h.covers instant hlow hbelow
      exact ⟨d, List.mem_cons_of_mem _ hd, hle, hnear⟩
    · rw [Time.le_iff] at hhigh habove
      rw [Time.sub_time] at hgap
      rcases Int.lt_or_le instant.secs t.secs with hbefore | hafter
      · refine ⟨latest, by simp, Time.le_iff.2 habove, ?_⟩
        rw [Time.sub_time]
        omega
      · refine ⟨t, by simp, Time.le_iff.2 hafter, ?_⟩
        rw [Time.sub_time]
        omega
  · have hdiv : (t - earliest + step - 1) / step = (latest - earliest + step - 1) / step + 1 := by
      rw [Time.sub_time] at hgap ⊢
      rw [Time.sub_time]
      have hsplit : t.secs - earliest.secs + step - 1 =
          (latest.secs - earliest.secs + step - 1) + step * 1 := by omega
      rw [hsplit, Int.add_mul_ediv_left _ _ (by omega)]
    rw [hdiv, ← h.length]
    rfl

/-- No time of a countdown is outside of its ends. -/
theorem between (h : CountsDown earliest latest step ds) : ∀ d ∈ ds, earliest ≤ d ∧ d ≤ latest := by
  intro d hd
  constructor
  · obtain ⟨before, rfl⟩ := List.getLast?_eq_some_iff.1 h.last
    rcases List.mem_append.1 hd with hd | hd
    · exact Time.le_of_lt ((List.pairwise_append.1 h.falls).2.2 d hd earliest (by simp))
    · rw [List.mem_singleton.1 hd]
      exact Time.le_refl _
  · obtain ⟨after, rfl⟩ := List.head?_eq_some_iff.1 h.head
    rcases List.mem_cons.1 hd with rfl | hd
    · exact Time.le_refl _
    · exact Time.le_of_lt ((List.pairwise_cons.1 h.falls).1 d hd)

end CountsDown

/-- Below the earliest departure nothing is left to count. -/
theorem departuresDownTo_of_le {earliest t : Time} (step : Int) (h : t ≤ earliest) :
    departuresDownTo earliest step t = [earliest] := by
  unfold departuresDownTo
  exact if_neg (Int.not_lt.2 h)

theorem departuresDownTo_countsDown (earliest : Time) (step : Int) (t : Time) (h : earliest ≤ t) :
    CountsDown earliest t (max step 1) (departuresDownTo earliest step t) := by
  fun_induction departuresDownTo earliest step t with
  | case1 t hlt ih =>
    have hlow := earliest.lower
    have hhigh := t.upper
    rcases Int.lt_or_le earliest.secs (t - max step 1).secs with hmore | hlast
    · -- The next time is above the earliest one, so the step to it has not been cut off.
      refine (ih (Time.le_of_lt hmore)).cons hmore (by omega) ?_
      rw [Time.sub_time]
      rw [Time.secs_sub] at hmore ⊢
      omega
    · rw [departuresDownTo_of_le step hlast]
      refine CountsDown.pair hlt ?_
      rw [Time.sub_time]
      rw [Time.secs_sub] at hlast
      omega
  | case2 t hlt =>
    obtain rfl : t = earliest := Time.ext (Int.le_antisymm (Int.not_lt.1 hlt) h)
    exact CountsDown.singleton (by omega)

/-- The departures of a range search count down from the end of the window, or from the last time
there is, to the earliest departure. -/
theorem departureTimes_countsDown (earliest : Time) (window step : Int) :
    (earliest + max window 0).secs = min 2147483647 (earliest.secs + max window 0) ∧
      CountsDown earliest (earliest + max window 0) (max step 1) (departureTimes earliest window step) := by
  refine ⟨?_, departuresDownTo_countsDown earliest step _ (Time.le_add (Int.le_max_right _ _))⟩
  have h := earliest.lower
  rw [Time.secs_add]
  omega

/-- A window of 90 seconds, walked through in steps of 60. -/
example : departureTimes (.hms 8 0 0) 90 60 = [.hms 8 1 30, .hms 8 0 30, .hms 8 0 0] := by decide +kernel

end JourneyPlanner
