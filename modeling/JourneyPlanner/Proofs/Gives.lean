import JourneyPlanner.DataError
/-!
# Computations that give a value

`Gives x P` says that a computation which may fail does not, and that its value satisfies `P`.
`GivesUnless E x P` allows it to stop with an error of the kind `E`, and `GivesInRange x P` with a sum that
does not fit. The steps of a search are put together with `GivesUnless.bind`, its loops with
`givesUnless_foldlM`.
-/
namespace JourneyPlanner

variable {ε α β : Type}

/-- The computation gives a value, and the value satisfies `P`. -/
def Gives (x : Except ε α) (P : α → Prop) : Prop := ∃ a, x = .ok a ∧ P a

theorem gives_ok {a : α} {P : α → Prop} (h : P a) : Gives (.ok a : Except ε α) P := ⟨a, rfl, h⟩

theorem gives_pure {a : α} {P : α → Prop} (h : P a) : Gives (pure a : Except ε α) P := ⟨a, rfl, h⟩

theorem Gives.mono {x : Except ε α} {P Q : α → Prop} (h : Gives x P) (hpq : ∀ a, P a → Q a) :
    Gives x Q := by
  obtain ⟨a, hx, ha⟩ := h
  exact ⟨a, hx, hpq a ha⟩

theorem Gives.bind {x : Except ε α} {f : α → Except ε β} {P : α → Prop} {Q : β → Prop}
    (hx : Gives x P) (hf : ∀ a, P a → Gives (f a) Q) : Gives (x >>= f) Q := by
  obtain ⟨a, rfl, ha⟩ := hx
  exact hf a ha

/-- The value of a computation that gives one. -/
theorem Gives.of_eq {x : Except ε α} {P : α → Prop} {a : α} (h : Gives x P) (hx : x = .ok a) : P a := by
  obtain ⟨b, hb, hP⟩ := h
  rw [hx] at hb
  cases hb
  exact hP

/-- What follows a computation that gives `a` starts from `a`. -/
theorem ok_bind (a : α) (f : α → Except ε β) : (Except.ok a >>= f) = f a := rfl

/-- What precedes a value that two computations in a row have given. -/
theorem of_bind_eq_ok {x : Except ε α} {f : α → Except ε β} {b : β} (h : x >>= f = .ok b) :
    ∃ a, x = .ok a ∧ f a = .ok b := by
  cases x with
  | error e => cases h
  | ok a => exact ⟨a, rfl, h⟩

theorem of_map_eq_ok {x : Except ε α} {f : α → β} {b : β} (h : x.map f = .ok b) : ∃ a, x = .ok a ∧ f a = b := by
  cases x with
  | error e => cases h
  | ok a => exact ⟨a, rfl, Except.ok.inj h⟩

theorem of_mapError_eq_ok {ε' : Type} {x : Except ε α} {f : ε → ε'} {a : α} (h : x.mapError f = .ok a) : x = .ok a := by
  cases x with
  | error e => cases h
  | ok b => exact congrArg _ (Except.ok.inj h)

/-- What gives a value does not stop. -/
theorem ne_error_of_isSome {x : Except ε α} (h : x.toOption.isSome = true) (e : ε) : x ≠ .error e := by
  rintro rfl
  cases h

/-! ## Computations that may stop -/

/-- The computation gives a value that satisfies `P`, or stops with an error of the kind `E`. -/
def GivesUnless (E : ε → Prop) (x : Except ε α) (P : α → Prop) : Prop := Gives x P ∨ ∃ e, x = .error e ∧ E e

/-- The computation gives a value that satisfies `P`, or stops where a sum does not fit. -/
abbrev GivesInRange (x : Except OutOfRange α) (P : α → Prop) : Prop := GivesUnless (· = .sum) x P

variable {E : ε → Prop}

theorem Gives.unless {x : Except ε α} {P : α → Prop} (h : Gives x P) : GivesUnless E x P := .inl h

theorem givesUnless_pure {a : α} {P : α → Prop} (h : P a) : GivesUnless E (pure a) P := .inl (gives_pure h)

namespace GivesUnless

variable {x : Except ε α} {P : α → Prop}

theorem mono {Q : α → Prop} (h : GivesUnless E x P) (hpq : ∀ a, P a → Q a) : GivesUnless E x Q :=
  h.imp_left fun h => h.mono hpq

theorem bind {f : α → Except ε β} {Q : β → Prop} (hx : GivesUnless E x P)
    (hf : ∀ a, P a → GivesUnless E (f a) Q) : GivesUnless E (x >>= f) Q := by
  rcases hx with ⟨a, rfl, ha⟩ | ⟨e, rfl, he⟩
  · exact hf a ha
  · exact .inr ⟨e, rfl, he⟩

/-- The value of a computation that gives one. -/
theorem of_eq {a : α} (h : GivesUnless E x P) (hx : x = .ok a) : P a := by
  rcases h with h | ⟨e, he, -⟩
  · exact h.of_eq hx
  · rw [hx] at he
    cases he

/-- A computation that does not stop gives a value. -/
theorem gives (h : GivesUnless E x P) (hx : ∀ e, E e → x ≠ .error e) : Gives x P :=
  h.resolve_right fun ⟨e, he, hE⟩ => hx e hE he

end GivesUnless

theorem GivesInRange.gives {x : Except OutOfRange α} {P : α → Prop} (h : GivesInRange x P) (hx : x ≠ .error .sum) :
    Gives x P :=
  GivesUnless.gives h fun _ he => he ▸ hx

/-- An error that is told in another way is told so of the computation that stops. -/
theorem GivesInRange.mapError {ε' : Type} {x : Except OutOfRange α} {P Q : α → Prop} {f : OutOfRange → ε'}
    (h : GivesInRange x P) (hpq : ∀ a, P a → Q a) : GivesUnless (· = f .sum) (x.mapError f) Q := by
  rcases h with ⟨a, rfl, ha⟩ | ⟨e, rfl, rfl⟩
  · exact .inl ⟨a, rfl, hpq a ha⟩
  · exact .inr ⟨_, rfl, rfl⟩

/-! ## Loops -/

/-- A loop gives a value if every step does. `P done` describes the value after the elements `done`. -/
theorem givesUnless_foldlM {f : β → α → Except ε β} {P : List α → β → Prop} (l : List α) (b : β)
    (hb : P [] b)
    (step : ∀ done a rest b, l = done ++ a :: rest → P done b → GivesUnless E (f b a) (P (done ++ [a]))) :
    GivesUnless E (l.foldlM f b) (P l) := by
  -- The elements before the current one are kept, so that `P` can speak of them.
  suffices h : ∀ rest done b, l = done ++ rest → P done b → GivesUnless E (rest.foldlM f b) (P l) from
    h l [] b rfl hb
  intro rest
  induction rest with
  | nil =>
    intro done b hl hP
    rw [List.append_nil] at hl
    exact givesUnless_pure (hl ▸ hP)
  | cons a rest ih =>
    intro done b hl hP
    rw [List.foldlM_cons]
    apply (step done a rest b hl hP).bind
    intro b' hb'
    exact ih (done ++ [a]) b' (by simpa using hl) hb'

theorem gives_foldlM {f : β → α → Except ε β} {P : List α → β → Prop} (l : List α) (b : β) (hb : P [] b)
    (step : ∀ done a rest b, l = done ++ a :: rest → P done b → Gives (f b a) (P (done ++ [a]))) :
    Gives (l.foldlM f b) (P l) := by
  have h : GivesUnless (fun _ => False) (l.foldlM f b) (P l) :=
    givesUnless_foldlM l b hb fun done a rest b hl hP => (step done a rest b hl hP).unless
  exact h.gives fun _ he => he.elim

/-- What every step of a loop keeps holds of the value that the loop has given. -/
theorem of_foldlM_eq_ok {f : β → α → Except ε β} {P : List α → β → Prop} {l : List α} {b b' : β}
    (h : l.foldlM f b = .ok b') (hb : P [] b)
    (step : ∀ done a rest b b', l = done ++ a :: rest → P done b → f b a = .ok b' → P (done ++ [a]) b') : P l b' := by
  -- As in `gives_foldlM`, the elements before the current one are kept.
  suffices key : ∀ rest done b, l = done ++ rest → P done b → rest.foldlM f b = .ok b' → P l b' from
    key l [] b rfl hb h
  clear h
  intro rest
  induction rest with
  | nil =>
    intro done b hl hP h
    rw [List.append_nil] at hl
    cases h
    exact hl ▸ hP
  | cons a rest ih =>
    intro done b hl hP h
    rw [List.foldlM_cons] at h
    obtain ⟨c, hc, h⟩ := of_bind_eq_ok h
    exact ih (done ++ [a]) c (by simpa using hl) (step done a rest b c hl hP hc) h

/-- A loop over places with their numbers. `P n` describes the value after the first `n` of them. -/
theorem givesUnless_foldlM_zipIdx {f : β → α × Nat → Except ε β} {P : Nat → β → Prop} (l : List α) (b : β)
    (hb : P 0 b) (step : ∀ i (h : i < l.length) b, P i b → GivesUnless E (f b (l[i], i)) (P (i + 1))) :
    GivesUnless E (l.zipIdx.foldlM f b) (P l.length) := by
  have key := givesUnless_foldlM (E := E) (f := f) (P := fun done b => P done.length b) l.zipIdx b hb ?_
  · exact key.mono fun b h => by simpa using h
  · intro done place rest b hl hP
    have hlen : done.length < l.length := by
      have := congrArg List.length hl
      simp only [List.length_zipIdx, List.length_append, List.length_cons] at this
      omega
    have hplace : place = (l[done.length], done.length) := by
      have h : l.zipIdx[done.length]? = some place := by simp [hl]
      rw [List.getElem?_zipIdx, List.getElem?_eq_getElem hlen] at h
      simpa using h.symm
    rw [hplace, List.length_append]
    exact step done.length hlen b hP

/-- The values that a computation has given for the elements of a list. -/
theorem mem_of_mapM_eq_ok {f : α → Except ε β} {l : List α} {bs : List β} (h : l.mapM f = .ok bs) (b : β) :
    b ∈ bs ↔ ∃ a ∈ l, f a = .ok b := by
  induction l generalizing bs with
  | nil =>
    cases h
    simp
  | cons a l ih =>
    rw [List.mapM_cons] at h
    obtain ⟨c, hc, h⟩ := of_bind_eq_ok h
    obtain ⟨cs, hcs, h⟩ := of_bind_eq_ok h
    cases h
    have hhead : b = c ↔ f a = .ok b := by rw [hc, Except.ok.injEq, eq_comm]
    simp only [List.mem_cons, ih hcs, hhead, exists_eq_or_imp]

/-- A computation for each element of a list. -/
theorem gives_mapM {f : α → Except ε β} {P : β → Prop} (l : List α) (h : ∀ a ∈ l, Gives (f a) P) :
    Gives (l.mapM f) (fun bs => (∀ b ∈ bs, P b) ∧ ∀ a ∈ l, ∃ b ∈ bs, f a = .ok b) := by
  induction l with
  | nil => exact gives_pure ⟨by simp, by simp⟩
  | cons a l ih =>
    rw [List.mapM_cons]
    obtain ⟨b, hb, hP⟩ := h a (by simp)
    obtain ⟨bs, hbs, hPs, hall⟩ := ih fun x hx => h x (by simp [hx])
    refine ⟨b :: bs, by rw [hb, hbs]; rfl, ?_, ?_⟩
    · intro y hy
      rcases List.mem_cons.1 hy with rfl | hy
      · exact hP
      · exact hPs y hy
    · intro x hx
      rcases List.mem_cons.1 hx with rfl | hx
      · exact ⟨b, (by simp), hb⟩
      · obtain ⟨y, hy, hxy⟩ := hall x hx
        exact ⟨y, List.mem_cons_of_mem _ hy, hxy⟩

end JourneyPlanner
