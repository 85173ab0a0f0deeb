import JourneyPlanner.StreetPath
import JourneyPlanner.Search.Settings
/-!
# Times that add up

Adding a duration to a time keeps the order of times. It adds up exactly where the sum lies inside
the range of times (`Time.Inside`). Opening hours move a start to a later time and an end to an
earlier one.
-/
namespace JourneyPlanner

namespace Time

/-- A time that is not at an end of the range. A sum that is inside has not been cut off. -/
def Inside (t : Time) : Prop := -2147483648 < t.secs ∧ t.secs < 2147483647

instance (t : Time) : Decidable t.Inside := inferInstanceAs (Decidable (_ ∧ _))

theorem le_trans {a b c : Time} (h : a ≤ b) (h' : b ≤ c) : a ≤ c := by
  rw [le_iff] at *
  omega

theorem not_lt {a b : Time} : ¬ a < b ↔ b ≤ a := by
  rw [lt_iff, le_iff]
  omega

theorem not_le {a b : Time} : ¬ a ≤ b ↔ b < a := by
  rw [lt_iff, le_iff]
  omega

theorem le_of_lt {a b : Time} (h : a < b) : a ≤ b := by
  rw [lt_iff] at h
  rw [le_iff]
  omega

theorem le_total (a b : Time) : a ≤ b ∨ b ≤ a := by
  rw [le_iff, le_iff]
  omega

instance : Std.IsLinearOrder Time where
  le_refl := le_refl
  le_trans _ _ _ := le_trans
  le_antisymm _ _ h h' := Time.ext (Int.le_antisymm h h')
  le_total := le_total

instance : Std.LawfulOrderMin Time where
  min_eq_or a b := by
    show (if a ≤ b then a else b) = a ∨ (if a ≤ b then a else b) = b
    split
    · exact .inl rfl
    · exact .inr rfl
  le_min_iff a b c := by
    show a ≤ (if b ≤ c then b else c) ↔ a ≤ b ∧ a ≤ c
    split
    · rename_i h
      exact ⟨fun hab => ⟨hab, le_trans hab h⟩, And.left⟩
    · rename_i h
      exact ⟨fun hac => ⟨le_trans hac (le_of_lt (not_le.1 h)), hac⟩, And.right⟩

theorem secs_max (a b : Time) : (max a b).secs = max a.secs b.secs := by
  show (if a ≤ b then b else a).secs = _
  split
  · rename_i h
    rw [le_iff] at h
    omega
  · rename_i h
    rw [le_iff] at h
    omega

theorem le_max_left (a b : Time) : a ≤ max a b := by
  rw [le_iff, secs_max]
  omega

theorem max_eq (a b : Time) : max a b = a ∨ max a b = b := by
  show (if a ≤ b then b else a) = a ∨ (if a ≤ b then b else a) = b
  split
  · exact .inr rfl
  · exact .inl rfl

theorem add_le_add {a b : Time} {d e : Int} (h : a ≤ b) (hd : d ≤ e) : a + d ≤ b + e := by
  rw [le_iff] at *
  rw [secs_add, secs_add]
  omega

theorem le_add {t : Time} {d : Int} (hd : 0 ≤ d) : t ≤ t + d := by
  have h := t.upper
  rw [le_iff, secs_add]
  omega

theorem add_zero (t : Time) : t + (0 : Int) = t := by
  have h1 := t.lower
  have h2 := t.upper
  apply Time.ext
  rw [secs_add]
  omega

/-- A sum inside the range is exact. -/
theorem secs_add_of_inside {t : Time} {d : Int} (h : (t + d).Inside) : (t + d).secs = t.secs + d := by
  obtain ⟨h1, h2⟩ := h
  rw [secs_add] at *
  omega

/-- Going back from an exact sum leads to the start. -/
theorem add_sub_of_exact {t : Time} {d : Int} (h : (t + d).secs = t.secs + d) : t + d - d = t := by
  have h1 := t.lower
  have h2 := t.upper
  apply Time.ext
  rw [secs_sub, h]
  omega

/-- A duration counted back from a sum leads to the sum again. -/
theorem add_sub_add {t : Time} {d : Int} (hd : 0 ≤ d) : t + d - d + d = t + d := by
  have h1 := t.lower
  have h2 := t.upper
  apply Time.ext
  simp only [secs_add, secs_sub]
  omega

end Time

/-! ## Street paths -/

namespace StreetPath

/-- The path may start at `t`. -/
def IsOpen (path : StreetPath) (t : Time) : Prop :=
  ∀ hours, path.hours = some hours → hours.opens ≤ t ∧ t ≤ hours.closes

theorem earliestStart?_spec {path : StreetPath} {requested start : Time}
    (h : path.earliestStart? requested = some start) : requested ≤ start ∧ path.IsOpen start := by
  simp only [earliestStart?] at h
  unfold IsOpen
  split at h
  · rename_i hn
    cases h
    exact ⟨Time.le_refl _, fun hours hh => by rw [hn] at hh; cases hh⟩
  · rename_i hours hh
    have ho := hours.opens_le
    split at h
    · rename_i hlt
      cases h
      refine ⟨Time.le_of_lt hlt, fun hours' hh' => ?_⟩
      rw [hh] at hh'
      cases hh'
      exact ⟨Time.le_refl _, ho⟩
    · rename_i hlt
      split at h
      · cases h
      · rename_i hgt
        cases h
        refine ⟨Time.le_refl _, fun hours' hh' => ?_⟩
        rw [hh] at hh'
        cases hh'
        exact ⟨Time.not_lt.1 hlt, Time.not_lt.1 hgt⟩

/-- Whoever asks earlier starts no later. -/
theorem earliestStart?_mono {path : StreetPath} {a b start : Time} (hab : a ≤ b)
    (hstart : b ≤ start) (hopen : path.IsOpen start) :
    ∃ s, path.earliestStart? a = some s ∧ s ≤ start := by
  unfold earliestStart?
  simp only [IsOpen] at hopen
  cases hh : path.hours with
  | none => exact ⟨a, rfl, Time.le_trans hab hstart⟩
  | some hours =>
    obtain ⟨h1, h2⟩ := hopen hours hh
    have hle := Time.le_trans hab hstart
    simp only
    split
    · exact ⟨_, rfl, h1⟩
    · have : ¬ hours.closes < a := Time.not_lt.2 (Time.le_trans hle h2)
      rw [if_neg this]
      exact ⟨_, rfl, hle⟩

theorem latestEnd?_le {path : StreetPath} {requested e : Time}
    (h : path.latestEnd? requested = some e) : e ≤ requested := by
  unfold latestEnd? at h
  split at h
  · cases h
    exact Time.le_refl _
  · rename_i hours _
    simp only at h
    split at h
    · rename_i hlt
      cases h
      have h1 := hours.closes.lower
      have h2 := hours.closes.upper
      have h3 := requested.lower
      have h4 := requested.upper
      rw [Time.lt_iff, Time.secs_sub] at hlt
      rw [Time.le_iff, Time.secs_add]
      omega
    · split at h
      · cases h
      · cases h
        exact Time.le_refl _

/-- A path that ends as late as it may, inside the range, has started while it was open. -/
theorem latestEnd?_isOpen {path : StreetPath} {requested e : Time}
    (h : path.latestEnd? requested = some e) (he : e.Inside) : path.IsOpen (e - path.duration) := by
  simp only [latestEnd?] at h
  intro hours hh
  rw [hh] at h
  have ho := hours.opens_le
  simp only at h
  split at h
  · cases h
    rw [Time.add_sub_of_exact (Time.secs_add_of_inside he)]
    exact ⟨ho, Time.le_refl _⟩
  · rename_i hgt
    split at h
    · cases h
    · rename_i hlt
      cases h
      exact ⟨Time.not_lt.1 hlt, Time.not_lt.1 hgt⟩

end StreetPath

/-! ## The slack of a boarding -/

namespace Settings

variable {s : Settings}

/-- Whoever arrives no later, and with rides only if the other one has some, may board no later. -/
theorem boardingFloor_mono (hslack : 0 ≤ s.transferSlack) {a b : Time} {m n : Nat} (hab : a ≤ b)
    (hmn : 0 < m → 0 < n) : s.boardingFloor a m ≤ s.boardingFloor b n := by
  unfold boardingFloor slackAfter
  apply Time.add_le_add hab
  split
  · split
    · exact Int.le_refl _
    · omega
  · split
    · omega
    · exact Int.le_refl _

/-- Settings that a search can work with. -/
structure Sound (s : Settings) : Prop where
  maxRounds_le : s.maxRounds ≤ 251
  boardSlack : 0 ≤ s.boardSlack
  transferSlack : 0 ≤ s.transferSlack

theorem check_of_defect? (h : s.defect? = none) : s.check = .ok () := by
  unfold check
  rw [h]

theorem sound_of_check (h : s.check = .ok ()) : s.Sound := by
  simp only [check] at h
  split at h
  · cases h
  · rename_i hd
    simp only [defect?] at hd
    split at hd
    · cases hd
    rename_i h1
    split at hd
    · cases hd
    split at hd
    · cases hd
    split at hd
    · cases hd
    rename_i h4
    simp only [transferLimit] at h1
    refine ⟨?_, by omega, by omega⟩
    unfold maxRounds
    omega

end Settings

end JourneyPlanner
