import Mathlib.Algebra.Group.Nat.Defs
import Mathlib.Data.List.TakeWhile
import JourneyPlanner.Time.Text
/-!
# How times are spelled

`Time.Spells` is the grammar of times: a minus sign or none, one to three digits for the hours, and two digits each for
the minutes and for the seconds, which may be left out. `Time.parse` reads exactly the texts that spell a time between
blanks.
-/
namespace JourneyPlanner

namespace Text

variable {cs lead trail : List Char} {c : Char} {n : Nat}

/-! ## Digits -/

/-- A row of digits that writes `n` in base ten. -/
structure Numeral (cs : List Char) (n : Nat) : Prop where
  digits : ∀ c ∈ cs, c.isDigit = true
  value : Nat.ofDigitChars 10 cs 0 = n

theorem digits?_eq_some_iff : digits? cs = some n ↔ Numeral cs n := by
  unfold digits?
  split
  · rename_i hall
    have hdigits := List.all_eq_true.1 hall
    exact ⟨fun h => ⟨hdigits, Option.some.inj h⟩, fun h => congrArg some h.value⟩
  · rename_i hall
    exact ⟨nofun, fun h => (hall (List.all_eq_true.2 h.digits)).elim⟩

theorem twoDigits?_eq_some_iff : twoDigits? cs = some n ↔ cs.length = 2 ∧ Numeral cs n := by
  unfold twoDigits?
  split
  · rename_i hlength
    rw [digits?_eq_some_iff, and_iff_right hlength]
  · rename_i hlength
    exact ⟨nofun, fun h => (hlength h.1).elim⟩

theorem toNat_of_isDigit (h : c.isDigit = true) : 48 ≤ c.toNat ∧ c.toNat ≤ 57 := by
  simpa [Char.isDigit, UInt32.le_iff_toNat_le] using h

/-- So many digits write less than so many tens multiplied. -/
theorem Numeral.lt (h : Numeral cs n) : n < 10 ^ cs.length := by
  induction cs generalizing n with
  | nil =>
    rw [← h.value]
    exact Nat.one_pos
  | cons c cs ih =>
    have hc := toNat_of_isDigit (h.digits c (by simp))
    have hrest := ih ⟨fun d hd => h.digits d (List.mem_cons_of_mem c hd), rfl⟩
    rw [← h.value, Nat.ofDigitChars_cons, Nat.ofDigitChars_eq_ofDigitChars_zero, List.length_cons, Nat.pow_succ]
    have hdigit : 10 ^ cs.length * (10 * 0 + (c.toNat - '0'.toNat)) ≤ 10 ^ cs.length * 9 :=
      Nat.mul_le_mul_left _ (by simp; omega)
    omega

/-! ## Blanks -/

theorem isBlank_of_isDigit (h : c.isDigit = true) : isBlank c = false := by
  have hc := toNat_of_isDigit h
  have hranges : ∀ r ∈ blankRanges, r.2 < 48 ∨ 57 < r.1 := by decide
  rw [← Bool.not_eq_true, isBlank, List.any_eq_true]
  rintro ⟨r, hr, hinside⟩
  simp only [Bool.and_eq_true, decide_eq_true_eq] at hinside
  have := hranges r hr
  omega

/-- A text without blanks is what is left of it between blanks. -/
theorem trim_append (hlead : ∀ c ∈ lead, isBlank c = true) (hcs : ∀ c ∈ cs, isBlank c = false)
    (htrail : ∀ c ∈ trail, isBlank c = true) : trim (lead ++ cs ++ trail) = cs := by
  have hback : cs.reverse.dropWhile isBlank = cs.reverse :=
    List.dropWhile_eq_self_iff.2 fun hl =>
      Bool.not_eq_true _ ▸ hcs _ (List.mem_reverse.1 (List.getElem_mem hl))
  unfold trim
  rw [List.append_assoc, List.dropWhile_append_of_pos hlead]
  cases cs with
  | nil => simp [List.dropWhile_eq_nil_iff.2 htrail]
  | cons c cs =>
    rw [List.cons_append, List.dropWhile_cons_of_neg (by simp [hcs c]), ← List.cons_append, List.reverse_append,
      List.dropWhile_append_of_pos fun c hc => htrail c (List.mem_reverse.1 hc), hback, List.reverse_reverse]

/-- What is taken off the ends of a text is blank. -/
theorem exists_eq_trim (cs : List Char) : ∃ lead trail, cs = lead ++ trim cs ++ trail ∧
    (∀ c ∈ lead, isBlank c = true) ∧ ∀ c ∈ trail, isBlank c = true := by
  have hfront := List.takeWhile_append_dropWhile (p := isBlank) (l := cs)
  have hback := List.takeWhile_append_dropWhile (p := isBlank) (l := (cs.dropWhile isBlank).reverse)
  refine ⟨cs.takeWhile isBlank, ((cs.dropWhile isBlank).reverse.takeWhile isBlank).reverse, ?_,
    fun c hc => List.mem_takeWhile_imp hc, fun c hc => List.mem_takeWhile_imp (List.mem_reverse.1 hc)⟩
  rw [trim, List.append_assoc, ← List.reverse_append, hback, List.reverse_reverse, hfront]

/-! ## Fields -/

theorem fields_eq_splitOnP (p : Char → Bool) (cs : List Char) : fields p cs = cs.splitOnP p := by
  induction cs with
  | nil => rfl
  | cons c cs ih =>
    rw [List.splitOnP_cons_eq_if_modifyHead, ← ih, fields]
    split
    · rfl
    · cases h : fields p cs with
      | nil => exact absurd h (fields_ne_nil p cs)
      | cons f fs => rfl

theorem fields_eq_splitOn (c : Char) (cs : List Char) : fields (· == c) cs = cs.splitOn c := fields_eq_splitOnP _ cs

end Text

namespace Time

open Text

variable {cs hour minute second lead trail : List Char} {fs : List (List Char)} {h m s n : Nat} {i : Int} {t : Time}

/-! ## The parts of a time -/

/-- One to three digits, for the hours. -/
structure HourText (cs : List Char) (n : Nat) : Prop where
  nonempty : 1 ≤ cs.length
  length : cs.length ≤ 3
  numeral : Numeral cs n

/-- Two digits below sixty, for the minutes or the seconds. -/
structure SixtiethText (cs : List Char) (n : Nat) : Prop where
  length : cs.length = 2
  numeral : Numeral cs n
  le : n ≤ 59

/-- How a number of seconds is spelled as hours and minutes, or as hours, minutes and seconds. -/
inductive Clock : List Char → Nat → Prop
  | minutes {hour minute : List Char} {h m : Nat} : HourText hour h → SixtiethText minute m →
      Clock (hour ++ ':' :: minute) (3600 * h + 60 * m)
  | seconds {hour minute second : List Char} {h m s : Nat} : HourText hour h → SixtiethText minute m →
      SixtiethText second s → Clock (hour ++ ':' :: (minute ++ ':' :: second)) (3600 * h + 60 * m + s)

/-- How a number of seconds is spelled as a time: negative numbers have a minus sign, and zero may have one. -/
inductive Spells : List Char → Int → Prop
  | plain {cs : List Char} {n : Nat} : Clock cs n → Spells cs n
  | minus {cs : List Char} {n : Nat} : Clock cs n → Spells ('-' :: cs) (-n)

theorem hours?_eq_some_iff : hours? cs = some n ↔ HourText cs n := by
  unfold hours?
  split
  · rename_i hlength
    refine ⟨nofun, fun h => ?_⟩
    have h1 := h.nonempty
    have h2 := h.length
    simp only [List.isEmpty_iff_length_eq_zero, Bool.or_eq_true, decide_eq_true_eq] at hlength
    omega
  · rename_i hlength
    simp only [List.isEmpty_iff_length_eq_zero, Bool.or_eq_true, decide_eq_true_eq] at hlength
    rw [digits?_eq_some_iff]
    exact ⟨fun h => ⟨by omega, by omega, h⟩, HourText.numeral⟩

theorem SixtiethText.twoDigits?_eq (h : SixtiethText cs n) : twoDigits? cs = some n :=
  twoDigits?_eq_some_iff.2 ⟨h.length, h.numeral⟩

theorem sixtiethText_of_twoDigits? (h : twoDigits? cs = some n) (hle : ¬ 59 < n) : SixtiethText cs n :=
  have ⟨hlength, hnumeral⟩ := twoDigits?_eq_some_iff.1 h
  ⟨hlength, hnumeral, Nat.le_of_not_lt hle⟩

/-- There is no colon among digits. -/
theorem colon_not_mem (h : Numeral cs n) : ':' ∉ cs := fun hmem => absurd (h.digits ':' hmem) (by decide)

theorem Clock.ofComponents_eq (h : Clock cs n) : ofComponents (fields (· == ':') cs) = .ok n := by
  rw [fields_eq_splitOn]
  cases h with
  | minutes hhour hminute =>
    have hm := Nat.not_lt.2 hminute.le
    rw [List.splitOn_append_cons_self_of_not_mem (colon_not_mem hhour.numeral),
      List.splitOn_eq_singleton (colon_not_mem hminute.numeral)]
    simp only [ofComponents, hours?_eq_some_iff.2 hhour, hminute.twoDigits?_eq, seconds?, List.length_nil, Nat.not_lt_zero,
      if_false, hm]
    exact congrArg Except.ok (by omega)
  | seconds hhour hminute hsecond =>
    have hm := Nat.not_lt.2 hminute.le
    have hs := Nat.not_lt.2 hsecond.le
    rw [List.splitOn_append_cons_self_of_not_mem (colon_not_mem hhour.numeral),
      List.splitOn_append_cons_self_of_not_mem (colon_not_mem hminute.numeral),
      List.splitOn_eq_singleton (colon_not_mem hsecond.numeral)]
    simp only [ofComponents, hours?_eq_some_iff.2 hhour, hminute.twoDigits?_eq, hsecond.twoDigits?_eq, seconds?,
      List.length_singleton, Nat.lt_irrefl, if_false, hm, hs]
    exact congrArg Except.ok (by omega)

theorem of_ofComponents_eq_ok (hread : ofComponents fs = .ok n) :
    ∃ hour minute h m, HourText hour h ∧ SixtiethText minute m ∧ (fs = [hour, minute] ∧ n = 3600 * h + 60 * m ∨
      ∃ second s, SixtiethText second s ∧ fs = [hour, minute, second] ∧ n = 3600 * h + 60 * m + s) := by
  revert hread
  -- Any other case is that of an error.
  fun_cases ofComponents fs with
  | case9 hour h hhour minute rest m hminute s hsecond hlength hm hs =>
    rintro ⟨⟩
    refine ⟨hour, minute, h, m, hours?_eq_some_iff.1 hhour, sixtiethText_of_twoDigits? hminute hm, ?_⟩
    match rest with
    | [] =>
      cases hsecond
      exact .inl ⟨rfl, by omega⟩
    | [second] => exact .inr ⟨second, s, sixtiethText_of_twoDigits? hsecond hs, rfl, by omega⟩
    | _ :: _ :: _ => simp at hlength
  | _ => nofun

theorem clock_of_ofComponents (h : ofComponents (fields (· == ':') cs) = .ok n) : Clock cs n := by
  obtain ⟨hour, minute, h, m, hhour, hminute, hrest⟩ := of_ofComponents_eq_ok h
  have hcs : [':'].intercalate (fields (· == ':') cs) = cs := by
    rw [fields_eq_splitOn, List.intercalate_splitOn]
  rcases hrest with ⟨hfields, rfl⟩ | ⟨second, s, hsecond, hfields, rfl⟩
  · rw [hfields, List.intercalate_cons_cons, List.intercalate_singleton, List.append_assoc] at hcs
    exact hcs ▸ .minutes hhour hminute
  · rw [hfields, List.intercalate_cons_cons, List.intercalate_cons_cons, List.intercalate_singleton, List.append_assoc,
      List.append_assoc] at hcs
    exact hcs ▸ .seconds hhour hminute hsecond

/-! ## The whole text -/

theorem Clock.lt (h : Clock cs n) : n < 3600000 := by
  have hhours : ∀ {cs h}, HourText cs h → h < 1000 := fun hhour =>
    Nat.lt_of_lt_of_le hhour.numeral.lt (Nat.pow_le_pow_right (by decide) hhour.length)
  cases h with
  | minutes hhour hminute =>
    have := hhours hhour
    have := hminute.le
    omega
  | seconds hhour hminute hsecond =>
    have := hhours hhour
    have := hminute.le
    have := hsecond.le
    omega

/-- The characters that times are written with. -/
def IsTimeChar (c : Char) : Prop := c.isDigit = true ∨ c = ':' ∨ c = '-'

theorem IsTimeChar.not_blank {c : Char} (h : IsTimeChar c) : isBlank c = false := by
  rcases h with hdigit | rfl | rfl
  · exact isBlank_of_isDigit hdigit
  · decide
  · decide

theorem Clock.isDigit_or_eq (h : Clock cs n) : ∀ c ∈ cs, c.isDigit = true ∨ c = ':' := by
  intro c hc
  cases h with
  | minutes hhour hminute =>
    simp only [List.mem_append, List.mem_cons] at hc
    rcases hc with hc | rfl | hc
    · exact .inl (hhour.numeral.digits c hc)
    · exact .inr rfl
    · exact .inl (hminute.numeral.digits c hc)
  | seconds hhour hminute hsecond =>
    simp only [List.mem_append, List.mem_cons] at hc
    rcases hc with hc | rfl | hc | rfl | hc
    · exact .inl (hhour.numeral.digits c hc)
    · exact .inr rfl
    · exact .inl (hminute.numeral.digits c hc)
    · exact .inr rfl
    · exact .inl (hsecond.numeral.digits c hc)

theorem Spells.isTimeChar (h : Spells cs i) : ∀ c ∈ cs, IsTimeChar c := by
  intro c hc
  cases h with
  | plain hclock => exact (hclock.isDigit_or_eq c hc).imp_right .inl
  | minus hclock =>
    rcases List.mem_cons.1 hc with rfl | hc
    · exact .inr (.inr rfl)
    · exact (hclock.isDigit_or_eq c hc).imp_right .inl

theorem Spells.natAbs_lt (h : Spells cs i) : i.natAbs < 3600000 := by
  cases h with
  | plain hclock =>
    have := hclock.lt
    omega
  | minus hclock =>
    have := hclock.lt
    omega

/-- What can be spelled is inside the range of times. -/
theorem Spells.secs_ofSecs (h : Spells cs i) : (ofSecs i).secs = i := by
  have := h.natAbs_lt
  rw [Time.secs_ofSecs]
  omega

theorem signOf_cases (cs : List Char) :
    (∃ rest, cs = '-' :: rest ∧ signOf cs = (true, rest)) ∨ signOf cs = (false, cs) := by
  unfold signOf
  split
  · exact .inl ⟨_, rfl, rfl⟩
  · exact .inr rfl

theorem Spells.ofChars_eq (h : Spells cs i) (hlead : ∀ c ∈ lead, isBlank c = true)
    (htrail : ∀ c ∈ trail, isBlank c = true) : ofChars (lead ++ cs ++ trail) = .ok (ofSecs i) := by
  rw [ofChars, trim_append hlead (fun c hc => (h.isTimeChar c hc).not_blank) htrail]
  cases h with
  | plain hclock =>
    rcases signOf_cases cs with ⟨rest, rfl, -⟩ | hsign
    · exact absurd (hclock.isDigit_or_eq '-' (by simp)) (by decide)
    · simp only [hsign, hclock.ofComponents_eq]
      rfl
  | minus hclock =>
    simp only [signOf, hclock.ofComponents_eq]
    rfl

theorem of_ofChars_eq_ok (h : ofChars cs = .ok t) :
    ∃ n, Clock (signOf (trim cs)).2 n ∧ t = ofSecs (if (signOf (trim cs)).1 then -(n : Int) else n) := by
  unfold ofChars at h
  dsimp only at h
  split at h
  · cases h
  · rename_i n hn
    exact ⟨n, clock_of_ofComponents hn, (Except.ok.inj h).symm⟩

theorem spells_of_ofChars (h : ofChars cs = .ok t) : Spells (trim cs) t.secs := by
  obtain ⟨n, hclock, rfl⟩ := of_ofChars_eq_ok h
  rcases signOf_cases (trim cs) with ⟨rest, htrim, hsign⟩ | hsign
  · rw [hsign] at hclock
    have hspells : Spells (trim cs) (-n) := htrim ▸ .minus hclock
    simpa only [hsign, if_true, hspells.secs_ofSecs] using hspells
  · rw [hsign] at hclock
    have hspells : Spells (trim cs) n := .plain hclock
    simpa only [hsign, Bool.false_eq_true, if_false, hspells.secs_ofSecs] using hspells

/-- A text is read as a time if and only if it spells that time between blanks. -/
theorem parse_eq_ok_iff (s : String) (t : Time) : parse s = .ok t ↔
    ∃ lead cs trail, s.toList = lead ++ cs ++ trail ∧ (∀ c ∈ lead, isBlank c = true) ∧
      (∀ c ∈ trail, isBlank c = true) ∧ Spells cs t.secs := by
  constructor
  · intro h
    obtain ⟨lead, trail, hs, hlead, htrail⟩ := exists_eq_trim s.toList
    exact ⟨lead, trim s.toList, trail, hs, hlead, htrail, spells_of_ofChars h⟩
  · rintro ⟨lead, cs, trail, hs, hlead, htrail, hspells⟩
    rw [parse, hs, hspells.ofChars_eq hlead htrail, ofSecs_secs]

end Time

end JourneyPlanner
