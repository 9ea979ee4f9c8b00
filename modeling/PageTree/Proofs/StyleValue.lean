import Mathlib.Data.List.DropRight
import PageTree.Proofs.Number.ReadBack
import PageTree.Proofs.StyleText

/-! # The text of a value as its normal form

What a value becomes in a declaration is a text that stays as it is when it is taken for a value
itself. A value that can be written is or spells a finite number, and then has the text of the
number, or it is another text, and is trimmed (**`StyleValue.number?_or_text`**). The text of a
number is read back as the number, and with its unit behind it spells no number any more, so a
second unit never follows. Main statement: `StyleValue.cssText?_normalises`. -/

namespace PageTree

/-! ## Trimmed texts -/

namespace Text

variable {cs : List Char} {s : String}

/-- Nothing is left to trim of what has been trimmed. -/
theorem trimList_trimList (cs : List Char) : trimList (trimList cs) = trimList cs := by
  -- what is left begins as it did before its end was cut off, and not with a blank
  have hbegin : trimList cs <+: cs.dropWhile isBlank := List.rdropWhile_prefix isBlank _
  have hfront : (trimList cs).dropWhile isBlank = trimList cs := by
    refine List.dropWhile_eq_self_iff.2 fun hpos => ?_
    rw [hbegin.getElem hpos]
    exact List.dropWhile_get_zero_not _ _ _
  have hend : (trimList cs).rdropWhile isBlank = trimList cs := List.rdropWhile_idempotent isBlank _
  calc trimList (trimList cs)
      = ((trimList cs).dropWhile isBlank).rdropWhile isBlank := rfl
    _ = trimList cs := by rw [hfront, hend]

/-- Nothing is left to trim of a trimmed text. -/
@[simp] theorem trim_trim (s : String) : trim (trim s) = trim s := by
  rw [trim, trim, String.toList_ofList, trimList_trimList]

/-- A text without blanks is trimmed already. -/
theorem trimList_eq_self (h : ∀ c ∈ cs, isBlank c = false) : trimList cs = cs := by
  have hfront : ∀ cs : List Char, (∀ c ∈ cs, isBlank c = false) → cs.dropWhile isBlank = cs :=
    fun cs h => List.dropWhile_eq_self_iff.2 fun _ => by simp [h]
  rw [trimList, hfront cs h, hfront _ fun c hc => h c (List.mem_reverse.1 hc), List.reverse_reverse]

/-- A text without blank characters is trimmed. -/
theorem trim_eq_self (h : ∀ c ∈ s.toList, isBlank c = false) : trim s = s := by
  rw [trim, trimList_eq_self h, String.ofList_toList]

/-- A text is blank exactly when nothing is left of it trimmed. -/
theorem isBlankText_iff : isBlankText s = true ↔ trim s = "" := by
  rw [isBlankText, List.all_eq_true, ← trimList_eq_nil_iff, trim, ← String.toList_inj,
    String.toList_ofList]
  rfl

end Text

/-! ## Values -/

namespace StyleValue

variable {value : StyleValue} {s : String} {x : Double}

/-- A text is a valid value unless it is blank. -/
theorem isValid_text_iff : (text s).isValid = true ↔ Text.trim s ≠ "" := by
  rw [isValid, Bool.not_eq_true', Ne, ← Text.isBlankText_iff, Bool.not_eq_true]

/-- The number of a value is finite. -/
theorem isFinite_of_number? (h : value.number? = some x) : x.isFinite = true := by
  cases value with
  | unset => contradiction
  | number y =>
    rw [number?, Option.ite_none_right_eq_some] at h
    obtain ⟨hfinite, hsome⟩ := h
    rwa [← Option.some.inj hsome]
  | text s =>
    rw [number?, Option.filter_eq_some_iff] at h
    exact h.2

/-- A value that is or spells a finite number can be written. -/
theorem isValid_of_number? (h : value.number? = some x) : value.isValid = true := by
  cases value with
  | unset => contradiction
  | number y =>
    rw [number?, Option.ite_none_right_eq_some] at h
    exact h.1
  | text s =>
    refine isValid_text_iff.2 fun hblank => ?_
    have hnone : Double.ofText? "" = none := by decide +kernel
    rw [number?, hblank, hnone, Option.filter_none] at h
    cases h

/-- A value that is or spells a finite number has the text of the number. -/
theorem cssText?_of_number? (h : value.number? = some x) (property : String) :
    value.cssText? property = some (numberText property x) := by
  unfold cssText?
  rw [if_pos (isValid_of_number? h), h]

/-- A text that spells no finite number and is not blank is trimmed. -/
theorem cssText?_of_number?_eq_none (h : (text s).number? = none) (hs : Text.trim s ≠ "")
    (property : String) : (text s).cssText? property = some (Text.trim s) := by
  unfold cssText?
  rw [if_pos (isValid_text_iff.2 hs), h]

/-- The two kinds of values that have a text: those of a finite number, and the texts that spell
none and are not blank. -/
theorem number?_or_text (h : value.isValid = true) :
    (∃ x, value.number? = some x) ∨
      ∃ s, value = text s ∧ value.number? = none ∧ Text.trim s ≠ "" := by
  cases hnumber : value.number? with
  | some x => exact .inl ⟨x, rfl⟩
  | none =>
    cases value with
    | unset => contradiction
    | number x =>
      have hfinite : x.isFinite = true := h
      rw [number?, if_pos hfinite] at hnumber
      contradiction
    | text s => exact .inr ⟨s, rfl, rfl, isValid_text_iff.1 h⟩

/-! ## Texts of numbers as values -/

/-- No character of a number is blank. -/
theorem isBlank_eq_false_of_isNumberChar {c : Char} (h : Double.isNumberChar c = true) :
    Text.isBlank c = false := by
  refine Text.isBlank_eq_false_of_graphic ?_
  simp only [Double.isNumberChar, Bool.or_eq_true, beq_iff_eq] at h
  rcases h with (hdigit | rfl) | rfl
  · rw [Char.isDigit, Bool.and_eq_true, decide_eq_true_eq, decide_eq_true_eq] at hdigit
    exact ⟨Nat.le_trans (by decide) hdigit.1, Nat.le_trans hdigit.2 (by decide)⟩
  · decide
  · decide

/-- The text of a number spells this number. -/
theorem number?_text_toText (hx : x.isFinite = true) : (text x.toText).number? = some x := by
  have htrim : Text.trim x.toText = x.toText := Text.trim_eq_self fun c hc =>
    isBlank_eq_false_of_isNumberChar (Double.isNumberChar_of_mem_toText hx c hc)
  rw [number?, htrim, Double.ofText?_toText hx, Option.filter_some, if_pos hx]

/-- With its unit behind it, the text of a number spells none. -/
theorem number?_text_pixels (s : String) (hs : Text.trim (s ++ "px") = s ++ "px") :
    (text (s ++ "px")).number? = none := by
  have hx : 'x' ∈ (s ++ "px").toList := by simp
  rw [number?, hs, Double.ofText?_eq_none hx (by decide) (by decide), Option.filter_none]

/-- The text of a number in a declaration is its own text as a value. -/
theorem cssText?_text_numberText (hx : x.isFinite = true) (property : String) :
    (text (numberText property x)).cssText? property = some (numberText property x) := by
  rw [numberText]
  split
  next hunitless =>
    rw [cssText?_of_number? (number?_text_toText hx), numberText, if_pos hunitless]
  next hpixels =>
    have htrim : Text.trim (x.toText ++ "px") = x.toText ++ "px" := by
      refine Text.trim_eq_self fun c hc => ?_
      rw [String.toList_append, List.mem_append] at hc
      rcases hc with hnumber | hunit
      · exact isBlank_eq_false_of_isNumberChar (Double.isNumberChar_of_mem_toText hx c hnumber)
      · rcases List.mem_pair.1 hunit with rfl | rfl <;> rfl
    have hne : Text.trim (x.toText ++ "px") ≠ "" := by
      rw [htrim]
      simp
    rw [cssText?_of_number?_eq_none (number?_text_pixels _ htrim) hne, htrim]

/-- **The text of a value is its normal form.** Under every property a value has a text exactly when
it is valid. A text that, once trimmed, spells a finite number has the same text as this number. The
text of a value is its own text when it is taken for a value: a value that has been written passes
through unchanged, with no second unit. -/
theorem cssText?_normalises (property : String) :
    (∀ value : StyleValue, (value.cssText? property).isSome = value.isValid) ∧
    (∀ (s : String) (x : Double), Double.ofText? (Text.trim s) = some x → x.isFinite = true →
      (text s).cssText? property = (number x).cssText? property) ∧
    ∀ (value : StyleValue) (out : String), value.cssText? property = some out →
      (text out).cssText? property = some out := by
  refine ⟨fun value => isSome_cssText? value property, fun s x hparse hx => ?_,
    fun value out hout => ?_⟩
  · have htext : (text s).number? = some x := by
      rw [number?, hparse, Option.filter_some, if_pos hx]
    have hnumber : (number x).number? = some x := by rw [number?, if_pos hx]
    rw [cssText?_of_number? htext, cssText?_of_number? hnumber]
  · have hvalid : value.isValid = true := by
      rw [← isSome_cssText? value property, hout]
      rfl
    rcases number?_or_text hvalid with ⟨x, hnumber⟩ | ⟨s, rfl, hnone, hne⟩
    · rw [cssText?_of_number? hnumber] at hout
      rw [← Option.some.inj hout]
      exact cssText?_text_numberText (isFinite_of_number? hnumber) property
    · rw [cssText?_of_number?_eq_none hnone hne] at hout
      rw [← Option.some.inj hout, cssText?_of_number?_eq_none, Text.trim_trim]
      · rwa [number?, Text.trim_trim]
      · rwa [Text.trim_trim]

/-- A text with an exponent and blanks around it, as a length and as a bare number, and two texts of
numbers that are not finite. -/
theorem cssText?_normalises_of_spelled_numbers :
    (Double.ofText? (Text.trim " 4e1\n") = some (.ofNat 40) ∧ (Double.ofNat 40).isFinite = true ∧
      (text " 4e1\n").cssText? "width" = (number (.ofNat 40)).cssText? "width") ∧
    ((text " 4e1\n").cssText? "width" = some "40px" ∧
      (text "40px").cssText? "width" = some "40px") ∧
    ((text " 4e1\n").cssText? "zoom" = some "40" ∧ (text "40").cssText? "zoom" = some "40") ∧
    ((text " 1E999").cssText? "width" = some "1E999" ∧
      (text "1E999").cssText? "width" = some "1E999") ∧
    (text " nan ").isValid = true ∧ ((text " nan ").cssText? "width").isSome = true := by
  obtain ⟨hvalid, hsame, hagain⟩ := cssText?_normalises "width"
  obtain ⟨-, -, hzoom⟩ := cssText?_normalises "zoom"
  have hparse : Double.ofText? (Text.trim " 4e1\n") = some (.ofNat 40) := by decide +kernel
  have hfinite : (Double.ofNat 40).isFinite = true := by decide +kernel
  have hlength : (text " 4e1\n").cssText? "width" = some "40px" := by decide +kernel
  have hbare : (text " 4e1\n").cssText? "zoom" = some "40" := by decide +kernel
  have hlarge : (text " 1E999").cssText? "width" = some "1E999" := by decide +kernel
  have hword : (text " nan ").isValid = true := by decide +kernel
  exact ⟨⟨hparse, hfinite, hsame _ _ hparse hfinite⟩, ⟨hlength, hagain _ _ hlength⟩,
    ⟨hbare, hzoom _ _ hbare⟩, ⟨hlarge, hagain _ _ hlarge⟩, hword, (hvalid _).trans hword⟩

end StyleValue

end PageTree
