/-!
# Separated fields

`fields p cs` cuts a text at every character that satisfies `p` and drops those characters. There is
always one field more than there are separators, so two separators in a row enclose an empty field.
-/
namespace JourneyPlanner.Text

/-- The texts between the characters that satisfy `p`. -/
def fields (p : Char → Bool) : List Char → List (List Char)
  | [] => [[]]
  | c :: cs =>
    if p c then [] :: fields p cs
    else
      match fields p cs with
      | [] => [[c]]
      | f :: fs => (c :: f) :: fs

@[simp]
theorem length_fields (p : Char → Bool) (cs : List Char) :
    (fields p cs).length = cs.countP p + 1 := by
  induction cs with
  | nil => rfl
  | cons c cs ih =>
    by_cases h : p c = true
    · simp [fields, h, ih]
    · have hne : fields p cs ≠ [] := by
        intro e
        rw [e] at ih
        simp at ih
      obtain ⟨f, fs, e⟩ := List.exists_cons_of_ne_nil hne
      rw [e] at ih
      simp [fields, h, e, ← ih]

theorem fields_ne_nil (p : Char → Bool) (cs : List Char) : fields p cs ≠ [] := by
  intro e
  have := length_fields p cs
  rw [e] at this
  simp at this

end JourneyPlanner.Text
