import PageTree.Double.Shortest

/-! # The text of a number

Which characters the text of a finite number has: **`Double.isNumberChar_of_mem_toText`**, only
digits, the minus sign and the point, and **`Double.toText_ne_empty`**, at least one. -/

namespace PageTree.Double

/-- Whether a character can stand in the text of a finite number. -/
def isNumberChar (c : Char) : Bool := c.isDigit || c == '-' || c == '.'

/-- The significant digits are digits. -/
theorem isDigit_of_mem_significantDigits {n : Nat} {c : Char} (h : c ∈ (significantDigits n).1) :
    c.isDigit = true := by
  rw [significantDigits, List.mem_reverse] at h
  exact Digits.isDigit_of_mem_write (List.mem_reverse.1 (List.mem_of_mem_drop h))

/-- Laying digits out adds zeros and a point. -/
theorem mem_positionalText {digits : List Char} {point : Int} {c : Char}
    (h : c ∈ positionalText false digits point) : c ∈ digits ∨ c = '0' ∨ c = '.' := by
  -- the digits stand behind the point, in front of it, or on both sides
  rw [positionalText] at h
  split at h
  next =>
    simp only [List.mem_cons, List.mem_append, List.mem_replicate] at h
    rcases h with rfl | rfl | ⟨-, rfl⟩ | hdigit
    · exact .inr (.inl rfl)
    · exact .inr (.inr rfl)
    · exact .inr (.inl rfl)
    · exact .inl hdigit
  split at h
  next =>
    simp only [List.mem_append, List.mem_replicate] at h
    rcases h with (hdigit | ⟨-, rfl⟩) | hnone
    · exact .inl hdigit
    · exact .inr (.inl rfl)
    · exact absurd hnone List.not_mem_nil
  next =>
    simp only [List.mem_append, List.mem_cons] at h
    rcases h with hfront | rfl | hback
    · exact .inl (List.mem_of_mem_take hfront)
    · exact .inr (.inr rfl)
    · exact .inl (List.mem_of_mem_drop hback)

/-- Positional notation is never empty. -/
theorem positionalText_ne_nil (digits : List Char) (point : Int) :
    positionalText false digits point ≠ [] := by
  rw [positionalText]
  split
  next => exact List.cons_ne_nil _ _
  split
  next hpoint hlength =>
    intro hnil
    have hzero := congrArg List.length hnil
    simp only [List.length_append, List.length_replicate, List.length_nil] at hzero
    omega
  next => simp

/-- The text of a magnitude has digits and points, and is not empty. -/
theorem magnitudeText_plain (rank : Nat) :
    (∀ c ∈ magnitudeText .plain rank, c.isDigit = true ∨ c = '.') ∧
      magnitudeText .plain rank ≠ [] := by
  rw [magnitudeText]
  split
  next =>
    refine ⟨fun c hc => .inl ?_, List.cons_ne_nil _ _⟩
    obtain rfl := List.mem_singleton.1 hc
    rfl
  next =>
    refine ⟨fun c hc => ?_, positionalText_ne_nil _ _⟩
    rcases mem_positionalText hc with hdigit | rfl | rfl
    · exact .inl (isDigit_of_mem_significantDigits hdigit)
    · exact .inl rfl
    · exact .inr rfl

/-- The text of a finite number has digits, minus signs and points only. -/
theorem isNumberChar_of_mem_toText {x : Double} (hx : x.isFinite = true) :
    ∀ c ∈ x.toText.toList, isNumberChar c = true := by
  cases x with
  | finite negative rank =>
    intro c hc
    rw [toText, write, String.toList_ofList, List.mem_append] at hc
    rcases hc with hsign | hmagnitude
    · cases negative with
      | true =>
        obtain rfl := List.mem_singleton.1 hsign
        rfl
      | false => exact absurd hsign List.not_mem_nil
    · rcases (magnitudeText_plain rank).1 c hmagnitude with hdigit | rfl
      · simp [isNumberChar, hdigit]
      · rfl
  | infinite negative => contradiction
  | nan => contradiction

/-- The text of a finite number is never empty. -/
theorem toText_ne_empty {x : Double} (hx : x.isFinite = true) : x.toText.toList ≠ [] := by
  cases x with
  | finite negative rank =>
    rw [toText, write, String.toList_ofList]
    exact List.append_ne_nil_of_right_ne_nil _ (magnitudeText_plain rank).2
  | infinite negative => contradiction
  | nan => contradiction

end PageTree.Double
