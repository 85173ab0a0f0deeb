import JourneyPlanner.Proofs.Spelling
/-!
# Written times are read back

A time is written as it is spelled, with as many digits for the hours as it takes, and reading takes three of them. So
a time below a thousand hours is read back from its text, and so is a list of them from their texts with commas and
blanks in between (`Time.Listing`).
-/
namespace JourneyPlanner

namespace Text

variable {n : Nat} {p : Char → Bool} {c : Char} {word sep lead : List Char}

theorem numeral_decimal (n : Nat) : Numeral (decimal n) n :=
  ⟨fun _ hc => Nat.isDigit_of_mem_toDigits (by decide) (by decide) hc, Nat.ofDigitChars_ten_toDigits⟩

theorem length_decimal_le_iff : (decimal n).length ≤ 3 ↔ n < 1000 := Nat.length_toDigits_le_iff (by decide) (by decide)

theorem numeral_twoDigits (h : n < 100) : Numeral (twoDigits n) n := by
  have hten : n / 10 < 10 := by omega
  have hone : n % 10 < 10 := by omega
  refine ⟨?_, ?_⟩
  · simp [twoDigits, hten, hone]
  · rw [twoDigits, Nat.ofDigitChars_cons_digitChar_of_lt_ten hten, Nat.ofDigitChars_cons_digitChar_of_lt_ten hone,
      Nat.ofDigitChars_nil]
    omega

/-! ## Words between separators -/

/-- The fields of a text that are not empty. -/
def words (p : Char → Bool) (cs : List Char) : List (List Char) := (fields p cs).filter fun f => !f.isEmpty

/-- A separator parts the words before it from those behind it. -/
theorem words_append_cons (hsep : p c = true) (cs ds : List Char) : words p (cs ++ c :: ds) = words p cs ++ words p ds := by
  simp only [words, fields_eq_splitOnP, List.splitOnP_append_cons cs ds hsep, List.filter_append]

/-- Separators in front of a text are passed over. -/
theorem words_append (hlead : ∀ c ∈ lead, p c = true) (cs : List Char) : words p (lead ++ cs) = words p cs := by
  induction lead with
  | nil => rfl
  | cons c lead ih =>
    rw [← ih fun d hd => hlead d (List.mem_cons_of_mem c hd)]
    exact words_append_cons (hlead c (by simp)) [] (lead ++ cs)

theorem words_eq_singleton (hword : ∀ c ∈ word, p c = false) (hne : word ≠ []) : words p word = [word] := by
  rw [words, fields_eq_splitOnP, List.splitOnP_eq_singleton hword]
  simp [hne]

/-- A word ends where separators begin. -/
theorem words_append_append (hword : ∀ c ∈ word, p c = false) (hne : word ≠ []) (hsep : ∀ c ∈ sep, p c = true)
    (hsepne : sep ≠ []) (cs : List Char) : words p (word ++ (sep ++ cs)) = word :: words p cs := by
  obtain ⟨c, sep, rfl⟩ := List.exists_cons_of_ne_nil hsepne
  rw [List.cons_append, words_append_cons (hsep c (by simp)), words_eq_singleton hword hne,
    words_append fun d hd => hsep d (List.mem_cons_of_mem c hd), List.singleton_append]

end Text

namespace Time

open Text

variable {t : Time} {n : Nat} {lead text : String} {ts : List Time}

/-! ## One time -/

theorem sixtiethText_twoDigits (h : n < 60) : SixtiethText (twoDigits n) n :=
  ⟨rfl, numeral_twoDigits (by omega), by omega⟩

/-- The text of a time has a minus sign before midnight, and goes on with the hours. -/
theorem toChars_eq (t : Time) : t.toChars = signText t.secs ++ (decimal (t.secs.natAbs / 3600) ++
    ':' :: (twoDigits (t.secs.natAbs % 3600 / 60) ++
      if t.secs.natAbs % 60 = 0 then [] else ':' :: twoDigits (t.secs.natAbs % 60))) := by
  simp [toChars]

theorem clock_of_lt (h : n < 3600000) : Clock (decimal (n / 3600) ++ ':' :: (twoDigits (n % 3600 / 60) ++
    if n % 60 = 0 then [] else ':' :: twoDigits (n % 60))) n := by
  have hhour : HourText (decimal (n / 3600)) (n / 3600) :=
    ⟨Nat.length_toDigits_pos, length_decimal_le_iff.2 (by omega), numeral_decimal _⟩
  have hminute : SixtiethText (twoDigits (n % 3600 / 60)) (n % 3600 / 60) := sixtiethText_twoDigits (by omega)
  split
  · rw [List.append_nil]
    have hclock := Clock.minutes hhour hminute
    rwa [show 3600 * (n / 3600) + 60 * (n % 3600 / 60) = n by omega] at hclock
  · have hclock := Clock.seconds hhour hminute (sixtiethText_twoDigits (n := n % 60) (by omega))
    rwa [show 3600 * (n / 3600) + 60 * (n % 3600 / 60) + n % 60 = n by omega] at hclock

theorem spells_toChars (h : t.secs.natAbs < 3600000) : Spells t.toChars t.secs := by
  have hclock := clock_of_lt h
  rw [toChars_eq, signText]
  split
  · have hspells := Spells.minus hclock
    rwa [show -(t.secs.natAbs : Int) = t.secs by omega] at hspells
  · have hspells := Spells.plain hclock
    rwa [show (t.secs.natAbs : Int) = t.secs by omega] at hspells

theorem isTimeChar_toChars (t : Time) : ∀ c ∈ t.toChars, IsTimeChar c := by
  have hdigits : ∀ {cs n}, Numeral cs n → ∀ c ∈ cs, IsTimeChar c := fun h c hc => .inl (h.digits c hc)
  have hcolon : IsTimeChar ':' := .inr (.inl rfl)
  have hminus : IsTimeChar '-' := .inr (.inr rfl)
  have hminute := hdigits (numeral_twoDigits (n := t.secs.natAbs % 3600 / 60) (by omega))
  have hsecond := hdigits (numeral_twoDigits (n := t.secs.natAbs % 60) (by omega))
  rw [toChars_eq, signText]
  simp only [List.forall_mem_append, List.forall_mem_cons]
  refine ⟨?_, hdigits (numeral_decimal _), hcolon, hminute, ?_⟩
  · split
    · exact List.forall_mem_singleton.2 hminus
    · nofun
  · split
    · nofun
    · exact List.forall_mem_cons.2 ⟨hcolon, hsecond⟩

theorem trim_toChars (t : Time) : trim t.toChars = t.toChars := by
  have h : trim ([] ++ t.toChars ++ []) = t.toChars :=
    trim_append nofun (fun c hc => (isTimeChar_toChars t c hc).not_blank) nofun
  rwa [List.nil_append, List.append_nil] at h

theorem ofChars_toChars (h : t.secs.natAbs < 3600000) : ofChars t.toChars = .ok t := by
  have hread : ofChars ([] ++ t.toChars ++ []) = .ok (ofSecs t.secs) := (spells_toChars h).ofChars_eq nofun nofun
  rwa [List.nil_append, List.append_nil, ofSecs_secs] at hread

/-- The hours come right behind the sign. -/
theorem exists_signOf_toChars (t : Time) : ∃ negative rest,
    signOf t.toChars = (negative, decimal (t.secs.natAbs / 3600) ++ ':' :: rest) := by
  rw [toChars_eq, signText]
  split
  · exact ⟨true, _, rfl⟩
  · rw [List.nil_append]
    refine ⟨false, _, (signOf_cases _).resolve_left ?_⟩
    rintro ⟨rest, hminus, -⟩
    rcases List.append_eq_cons_iff.1 hminus with ⟨hnil, -⟩ | ⟨digits, hdigits, -⟩
    · exact Nat.toDigits_ne_nil hnil
    · exact absurd ((numeral_decimal (t.secs.natAbs / 3600)).digits '-' (by simp [hdigits])) (by decide)

/-- A thousand hours have too many digits. -/
theorem ofChars_toChars_of_le (h : 3600000 ≤ t.secs.natAbs) : ofChars t.toChars = .error .hourDigits := by
  have hhours : hours? (decimal (t.secs.natAbs / 3600)) = none := by
    refine Option.eq_none_iff_forall_ne_some.2 fun n hn => ?_
    have := length_decimal_le_iff.1 (hours?_eq_some_iff.1 hn).length
    omega
  obtain ⟨negative, rest, hsign⟩ := exists_signOf_toChars t
  have hfields : fields (· == ':') (decimal (t.secs.natAbs / 3600) ++ ':' :: rest) =
      decimal (t.secs.natAbs / 3600) :: fields (· == ':') rest := by
    rw [fields_eq_splitOn, List.splitOn_append_cons_self_of_not_mem (colon_not_mem (numeral_decimal _)), fields_eq_splitOn]
  rw [ofChars, trim_toChars]
  simp only [hsign, hfields, ofComponents, hhours]

/-! ## A list of times -/

/-- Nothing but commas and blanks. -/
def IsSeparation (sep : String) : Prop := ∀ c ∈ sep.toList, c = ',' ∨ isBlank c = true

/-- Times written one after another. Each has separators behind it, and the last one may have none. -/
inductive Listing : List Time → String → Prop
  | nil : Listing [] ""
  | last (t : Time) : Listing [t] (toString t)
  | cons {t : Time} {ts : List Time} {sep text : String} : IsSeparation sep → sep ≠ "" → Listing ts text →
      Listing (t :: ts) (toString t ++ sep ++ text)

theorem toList_toString (t : Time) : (toString t).toList = t.toChars := String.toList_ofList

theorem toChars_ne_nil (t : Time) : t.toChars ≠ [] := by
  rw [toChars_eq]
  simp

theorem isSeparation_iff {sep : String} : IsSeparation sep ↔ ∀ c ∈ sep.toList, isListSeparator c = true := by
  simp [IsSeparation, isListSeparator]

theorem not_isListSeparator_toChars (t : Time) : ∀ c ∈ t.toChars, isListSeparator c = false := by
  intro c hc
  have htime := isTimeChar_toChars t c hc
  have hcomma : c ≠ ',' := by
    rintro rfl
    exact absurd htime (by unfold IsTimeChar; decide)
  simp [isListSeparator, hcomma, htime.not_blank]

theorem Listing.words_eq (h : Listing ts text) : words isListSeparator text.toList = ts.map toChars := by
  induction h with
  | nil => rfl
  | last t =>
    rw [toList_toString, words_eq_singleton (not_isListSeparator_toChars t) (toChars_ne_nil t)]
    rfl
  | @cons t ts sep text hsep hne _ ih =>
    rw [String.toList_append, String.toList_append, toList_toString, List.append_assoc,
      words_append_append (not_isListSeparator_toChars t) (toChars_ne_nil t) (isSeparation_iff.1 hsep)
        (by simpa using hne), ih]
    rfl

theorem mapM_ofChars (h : ∀ t ∈ ts, t.secs.natAbs < 3600000) : (ts.map toChars).mapM ofChars = .ok ts := by
  induction ts with
  | nil => rfl
  | cons t ts ih =>
    rw [List.map_cons, List.mapM_cons, ofChars_toChars (h t (by simp)),
      ih fun x hx => h x (List.mem_cons_of_mem t hx)]
    rfl

/-- A time is read back from its text if it is less than a thousand hours from midnight, and refused if not. A list
of such times is read back from any text that has commas and blanks between them, and before and behind them or not. -/
theorem texts_read_back :
    (∀ t : Time, parse (toString t) = if t.secs.natAbs < 3600000 then .ok t else .error .hourDigits) ∧
      ∀ ts lead text, IsSeparation lead → Listing ts text → (∀ t ∈ ts, t.secs.natAbs < 3600000) →
        parseList (lead ++ text) = .ok ts := by
  constructor
  · intro t
    rw [parse, toList_toString]
    split
    · rename_i h
      exact ofChars_toChars h
    · rename_i h
      exact ofChars_toChars_of_le (Nat.le_of_not_lt h)
  · intro ts lead text hlead hlisting hrange
    have hwords : words isListSeparator (lead ++ text).toList = ts.map toChars := by
      rw [String.toList_append, words_append (isSeparation_iff.1 hlead), hlisting.words_eq]
    rw [parseList]
    exact (congrArg (List.mapM ofChars) hwords).trans (mapM_ofChars hrange)

/-- The minute before midnight, and the last second below a thousand hours. -/
theorem two_texts_read_back : IsSeparation " " ∧
    Listing [ofSecs (-60), ofSecs 3599999] (toString (ofSecs (-60)) ++ ", " ++ toString (ofSecs 3599999)) ∧
    (∀ t ∈ [ofSecs (-60), ofSecs 3599999], t.secs.natAbs < 3600000) ∧
    parseList " -0:01, 999:59:59" = .ok [ofSecs (-60), ofSecs 3599999] := by
  have hlead : IsSeparation " " := isSeparation_iff.2 (List.all_eq_true.1 rfl)
  have hsep : IsSeparation ", " := isSeparation_iff.2 (List.all_eq_true.1 rfl)
  have hlisting := Listing.cons hsep (by decide) (.last (ofSecs 3599999)) (t := ofSecs (-60))
  have hrange : ∀ t ∈ [ofSecs (-60), ofSecs 3599999], t.secs.natAbs < 3600000 := by decide
  have hread := texts_read_back.2 _ _ _ hlead hlisting hrange
  exact ⟨hlead, hlisting, hrange, hread⟩

end Time

end JourneyPlanner
