import PageTree.Style.PropertyName

/-! # What the notations of a property name share

The two notations of a name differ in hyphens and in the case of letters only, so a name has the
same **`PropertyName.letterCount`** in both: `letterCount_hyphenated_eq`. -/

namespace PageTree.PropertyName

/-! ## Case

The letters of either case are few, so what is said of all of them is checked one by one. -/

/-- The small letters are the characters in a range of codes. -/
theorem isLower_iff {c : Char} : c.isLower = true ↔ 'a'.val ≤ c.val ∧ c.val ≤ 'z'.val := by
  have hlower : c.isLower = (decide ('a'.val ≤ c.val) && decide (c.val ≤ 'z'.val)) := rfl
  rw [hlower, Bool.and_eq_true, decide_eq_true_eq, decide_eq_true_eq]

/-- The capitals are the characters in a range of codes. -/
theorem isUpper_iff {c : Char} : c.isUpper = true ↔ 'A'.val ≤ c.val ∧ c.val ≤ 'Z'.val :=
  decide_eq_true_iff

/-- What holds of the small letters by their codes holds of every small letter. -/
@[elab_as_elim]
theorem of_isLower {p : Char → Prop} {c : Char} (h : c.isLower = true)
    (hletters : ∀ n < 123, 97 ≤ n → p (Char.ofNat n)) : p c := by
  rw [isLower_iff, UInt32.le_iff_toNat_le, UInt32.le_iff_toNat_le] at h
  have hc := hletters c.toNat (Nat.lt_succ_of_le h.2) h.1
  rwa [Char.ofNat_toNat] at hc

/-- What holds of the capitals by their codes holds of every capital. -/
@[elab_as_elim]
theorem of_isUpper {p : Char → Prop} {c : Char} (h : c.isUpper = true)
    (hletters : ∀ n < 91, 65 ≤ n → p (Char.ofNat n)) : p c := by
  rw [isUpper_iff, UInt32.le_iff_toNat_le, UInt32.le_iff_toNat_le] at h
  have hc := hletters c.toNat (Nat.lt_succ_of_le h.2) h.1
  rwa [Char.ofNat_toNat] at hc

/-- The hyphen is no small letter that became a capital. -/
theorem toUpper_ne_hyphen {c : Char} (h : c ≠ '-') : c.toUpper ≠ '-' := by
  by_cases hlower : c.isLower = true
  · exact of_isLower hlower (by decide)
  · -- no other character changes
    have hsame : c.toUpper = c := by
      unfold Char.toUpper
      rw [isLower_iff] at hlower
      rw [dif_neg hlower]
    rwa [hsame]

/-- A capital is not the hyphen, nor is its small letter. -/
theorem ne_hyphen_of_isUpper {c : Char} (h : c.isUpper = true) : c ≠ '-' ∧ c.toLower ≠ '-' :=
  of_isUpper h (by decide)

/-! ## Counting all but hyphens -/

/-- How many characters are not hyphens. -/
def letterCount (cs : List Char) : Nat := cs.countP (· != '-')

/-- Letters are counted part by part. -/
theorem letterCount_append (cs ds : List Char) :
    letterCount (cs ++ ds) = letterCount cs + letterCount ds :=
  List.countP_append

/-- The first character counts unless it is a hyphen. -/
theorem letterCount_cons (c : Char) (cs : List Char) :
    letterCount (c :: cs) = (if c = '-' then 0 else 1) + letterCount cs := by
  rw [letterCount, List.countP_cons, ← letterCount]
  by_cases h : c = '-' <;> simp [h, Nat.add_comm]

/-- The hyphenated notation adds hyphens only. -/
theorem letterCount_hyphenatedChars (cs : List Char) :
    letterCount (hyphenatedChars cs) = letterCount cs := by
  have hflat : letterCount (cs.flatMap hyphenatedChar) = letterCount cs := by
    induction cs with
    | nil => rfl
    | cons c cs ih =>
      rw [List.flatMap_cons, letterCount_append, ih, letterCount_cons c]
      by_cases hupper : c.isUpper = true
      · obtain ⟨hc, hlower⟩ := ne_hyphen_of_isUpper hupper
        rw [hyphenatedChar, if_pos hupper, letterCount_cons, letterCount_cons, if_pos rfl,
          if_neg hlower, if_neg hc]
        rfl
      · rw [hyphenatedChar, if_neg hupper, letterCount_cons]
        rfl
  rw [hyphenatedChars]
  split
  · rfl
  · have hvendor : letterCount (if hasVendorMs cs then ['-'] else []) = 0 := by
      split <;> rfl
    rw [letterCount_append, hflat, hvendor, Nat.zero_add]

/-- Joining words drops hyphens only. -/
theorem letterCount_joinWords (raise : Bool) (cs : List Char) :
    letterCount (joinWords raise cs) = letterCount cs := by
  induction cs generalizing raise with
  | nil => rfl
  | cons c cs ih =>
    rw [joinWords, letterCount_cons c]
    by_cases hc : c = '-'
    · rw [if_pos hc, if_pos hc, ih, Nat.zero_add]
    · have hraised : (if raise then c.toUpper else c) ≠ '-' := by
        split
        · exact toUpper_ne_hyphen hc
        · exact hc
      rw [if_neg hc, if_neg hc, letterCount_cons, if_neg hraised, ih]

/-- Camel case drops hyphens only. -/
theorem letterCount_camelCaseChars (cs : List Char) :
    letterCount (camelCaseChars cs) = letterCount cs := by
  have hvendor : letterCount (dropVendorHyphen cs) = letterCount cs := by
    unfold dropVendorHyphen
    split
    · rw [letterCount_cons '-', if_pos rfl, Nat.zero_add]
    · rfl
  rw [camelCaseChars]
  split
  · rfl
  · rw [letterCount_joinWords, hvendor]

/-- Names with one camel-case notation have as many letters in the hyphenated one. -/
theorem letterCount_hyphenated_eq {name other : String} (h : camelCase name = camelCase other) :
    letterCount (hyphenated name).toList = letterCount (hyphenated other).toList := by
  have hchars : camelCaseChars name.toList = camelCaseChars other.toList := by
    rw [camelCase, camelCase, String.ofList_inj] at h
    exact h
  rw [hyphenated, hyphenated, String.toList_ofList, String.toList_ofList,
    letterCount_hyphenatedChars, letterCount_hyphenatedChars,
    ← letterCount_camelCaseChars name.toList, hchars, letterCount_camelCaseChars]

end PageTree.PropertyName
