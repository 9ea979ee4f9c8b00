import Mathlib.Data.List.TakeDrop
import Mathlib.Data.List.TakeWhile
import PageTree.Json.Token

/-! # Literals read back

A literal without quotes is read back from what is written for it. The parts of a number literal
spell it (**`NumberLiteral.spelled_of_ofChars?`**), so every literal that is read at all has
digits, signs, points and exponent marks only. An integer is read back as the same integer
(**`Scalar.numberOf?_write`**). A double is written with a point or an exponent, so it is never
read as an integer, and is read back if its literal stands for it (**`Double.IsRestored`**). Main
statement: `Token.isWord_scalarChars`. -/

namespace PageTree

/-! ## The parts of a number literal -/

namespace NumberLiteral

/-- The literal is spelled by its parts: a sign, digits, a point with digits after it if there is a
fraction, and what is read as its exponent. -/
structure Spelled (lit : NumberLiteral) (cs tail : List Char) : Prop where
  /-- The parts in their order. -/
  chars : cs = (if lit.negative then ['-'] else []) ++ lit.whole ++
    (lit.fraction.elim [] ('.' :: ·)) ++ tail
  /-- There is a digit in front of the point. -/
  whole_ne_nil : lit.whole ≠ []
  /-- What stands in front of the point are digits. -/
  whole : ∀ c ∈ lit.whole, c.isDigit = true
  /-- What stands behind the point are digits. -/
  fraction : ∀ c ∈ lit.fraction.getD [], c.isDigit = true
  /-- What follows is the exponent. -/
  exponent : match lit.exponent with
    | none => tail = []
    | some e => Decimal.exponentOf? tail = some e

/-- Puts the parts of a literal together and reads its exponent. -/
def ofParts? (negative : Bool) (whole : List Char) (fraction : Option (List Char))
    (tail : List Char) : Option NumberLiteral :=
  if !isWhole whole || fraction == some [] then none
  else if tail.isEmpty then some ⟨negative, whole, fraction, none⟩
  else (Decimal.exponentOf? tail).map fun e => ⟨negative, whole, fraction, some e⟩

/-- Reads what follows the sign of a literal. -/
def ofUnsigned? (negative : Bool) (cs : List Char) : Option NumberLiteral :=
  match cs.dropWhile Char.isDigit with
  | '.' :: rest =>
    ofParts? negative (cs.takeWhile Char.isDigit) (some (rest.takeWhile Char.isDigit))
      (rest.dropWhile Char.isDigit)
  | rest => ofParts? negative (cs.takeWhile Char.isDigit) none rest

/-- What follows the sign is taken apart at the point, if there is one, and at the exponent. -/
theorem ofUnsigned?_eq (negative : Bool) (cs : List Char) :
    ofUnsigned? negative cs =
      let (fraction, tail) := match cs.dropWhile Char.isDigit with
        | '.' :: rest => (some (rest.takeWhile Char.isDigit), rest.dropWhile Char.isDigit)
        | rest => (none, rest)
      ofParts? negative (cs.takeWhile Char.isDigit) fraction tail := by
  rw [ofUnsigned?]
  split <;> rfl

/-- A minus in front makes a literal negative. -/
theorem ofChars?_minus (cs : List Char) : ofChars? ('-' :: cs) = ofUnsigned? true cs := by
  rw [ofChars?, List.span_eq_takeWhile_dropWhile, ofUnsigned?_eq]
  rfl

/-- A literal without a minus in front is not negative. -/
theorem ofChars?_of_ne {cs : List Char} (h : cs.head? ≠ some '-') :
    ofChars? cs = ofUnsigned? false cs := by
  rw [ofChars?]
  · rw [List.span_eq_takeWhile_dropWhile, ofUnsigned?_eq]
    rfl
  · rintro r rfl
    exact h rfl

/-- A whole part is not empty and has digits only. -/
theorem isDigit_of_isWhole {digits : List Char} (h : isWhole digits = true) :
    digits ≠ [] ∧ ∀ c ∈ digits, c.isDigit = true := by
  rw [isWhole, Bool.and_eq_true, Bool.and_eq_true, List.all_eq_true] at h
  exact ⟨by simpa using h.1.1, h.1.2⟩

variable {negative : Bool} {whole cs tail : List Char} {fraction : Option (List Char)}
  {lit : NumberLiteral}

/-- A literal put together from parts is spelled by them. -/
theorem spelled_of_ofParts? (hfraction : ∀ c ∈ fraction.getD [], c.isDigit = true)
    (h : ofParts? negative whole fraction tail = some lit) :
    lit.Spelled ((if negative then ['-'] else []) ++ whole ++
      (fraction.elim [] ('.' :: ·)) ++ tail) tail := by
  rw [ofParts?] at h
  split at h
  · contradiction
  · rename_i hparts
    have hisWhole : isWhole whole = true := by
      rw [Bool.or_eq_true, not_or, Bool.not_eq_true', Bool.not_eq_false] at hparts
      exact hparts.1
    obtain ⟨hne, hwhole⟩ := isDigit_of_isWhole hisWhole
    split at h
    · rename_i htail
      obtain rfl := Option.some.inj h
      exact ⟨rfl, hne, hwhole, hfraction, List.isEmpty_iff.1 htail⟩
    · obtain ⟨e, he, rfl⟩ := Option.map_eq_some_iff.1 h
      exact ⟨rfl, hne, hwhole, hfraction, he⟩

/-- The parts of a literal spell it, up to its sign. -/
theorem spelled_of_ofUnsigned? (h : ofUnsigned? negative cs = some lit) :
    ∃ tail, lit.Spelled ((if negative then ['-'] else []) ++ cs) tail := by
  have hcs := List.takeWhile_append_dropWhile (p := Char.isDigit) (l := cs)
  rw [ofUnsigned?] at h
  split at h
  · rename_i rest hrest
    have hdigits : ∀ c ∈ (some (rest.takeWhile Char.isDigit)).getD [], c.isDigit = true :=
      fun c hc => List.mem_takeWhile_imp hc
    have hspelled := spelled_of_ofParts? hdigits h
    refine ⟨rest.dropWhile Char.isDigit, ?_⟩
    rw [← hcs, hrest]
    simpa using hspelled
  · have hspelled := spelled_of_ofParts? (by simp) h
    refine ⟨cs.dropWhile Char.isDigit, ?_⟩
    rw [← hcs]
    simpa using hspelled

/-- The parts of a literal spell it. -/
theorem spelled_of_ofChars? {cs : List Char} {lit : NumberLiteral} (h : ofChars? cs = some lit) :
    ∃ tail, lit.Spelled cs tail := by
  by_cases hsign : cs.head? = some '-'
  · obtain ⟨rest, rfl⟩ : ∃ rest, cs = '-' :: rest := by
      cases cs with
      | nil => contradiction
      | cons c rest => exact ⟨rest, by rw [Option.some.inj hsign]⟩
    exact spelled_of_ofUnsigned? (ofChars?_minus rest ▸ h)
  · rw [ofChars?_of_ne hsign] at h
    exact spelled_of_ofUnsigned? h

/-- A literal without sign, fraction and exponent has digits only. -/
theorem Spelled.isDigit_of_mem (h : lit.Spelled cs tail) (hnegative : lit.negative = false)
    (hfraction : lit.fraction = none) (hexponent : lit.exponent = none) :
    ∀ c ∈ cs, c.isDigit = true := by
  have htail := h.exponent
  rw [hexponent] at htail
  have hchars := h.chars
  rw [hnegative, hfraction, htail] at hchars
  rw [hchars]
  simpa using h.whole

end NumberLiteral

/-! ## Words -/

namespace Token

/-- The characters that end a literal without quotes. -/
theorem mem_of_isWordChar_eq_false {c : Char} (h : isWordChar c = false) :
    c ∈ [' ', '\t', '\n', '\r', '[', ']', '\x7b', '\x7d', ',', ':', '"'] := by
  rw [isWordChar, Bool.and_eq_false_iff, Bool.and_eq_false_iff] at h
  rcases h with (hspace | hmark) | hquote
  · simp only [isSpace, Bool.not_eq_false', Bool.or_eq_true, beq_iff_eq] at hspace
    simp only [List.mem_cons]
    tauto
  · rw [punctuation?.eq_def] at hmark
    split at hmark
    all_goals first | contradiction | exact by decide
  · simp_all

/-- A digit goes on with a word. -/
theorem isWordChar_of_isDigit {c : Char} (h : c.isDigit = true) : isWordChar c = true := by
  by_contra hword
  have hmem := mem_of_isWordChar_eq_false (Bool.not_eq_true _ ▸ hword)
  have hnone : [' ', '\t', '\n', '\r', '[', ']', '\x7b', '\x7d', ',', ':', '"'].all
      (fun d => !d.isDigit) = true := by decide
  have hc := List.all_eq_true.1 hnone c hmem
  rw [h] at hc
  contradiction

/-- The characters of an exponent go on with a word. -/
theorem isWordChar_of_mem_exponent {tail : List Char} {e : Int}
    (h : Decimal.exponentOf? tail = some e) {c : Char} (hc : c ∈ tail) : isWordChar c = true := by
  cases tail with
  | nil => contradiction
  | cons mark rest =>
    rw [Decimal.exponentOf?.eq_def] at h
    simp only [Bool.or_eq_true, beq_iff_eq, List.isEmpty_iff, Bool.not_eq_true'] at h
    split at h
    · rename_i hmark
      have hdigits : ∀ {digits : List Char} {found : Int},
          (if digits = [] ∨ digits.all Char.isDigit = false then none else some found) = some e →
            ∀ d ∈ digits, isWordChar d = true := by
        intro digits found hfound d hd
        rw [Option.ite_none_left_eq_some, not_or, Bool.not_eq_false, List.all_eq_true] at hfound
        exact isWordChar_of_isDigit (hfound.1.2 d hd)
      -- whatever the sign is, it stands in front of digits only
      have hrest : ∀ d ∈ rest, isWordChar d = true := by
        split at h
        · exact List.forall_mem_cons.2 ⟨rfl, hdigits h⟩
        · exact List.forall_mem_cons.2 ⟨rfl, hdigits h⟩
        · exact hdigits h
      rcases List.mem_cons.1 hc with rfl | hc
      · rcases hmark with rfl | rfl <;> rfl
      · exact hrest c hc
    · contradiction

/-- A number literal is one word. -/
theorem isWordChar_of_mem_number {cs : List Char} {lit : NumberLiteral}
    (h : NumberLiteral.ofChars? cs = some lit) {c : Char} (hc : c ∈ cs) : isWordChar c = true := by
  obtain ⟨tail, hspelled⟩ := NumberLiteral.spelled_of_ofChars? h
  rw [hspelled.chars] at hc
  simp only [List.mem_append] at hc
  -- a character of a literal is from its sign, its digits, its fraction or its exponent
  rcases hc with ((hsign | hwhole) | hfraction) | htail
  · have hminus : c = '-' := by
      cases lit.negative <;> simp_all
    rw [hminus]
    rfl
  · exact isWordChar_of_isDigit (hspelled.whole c hwhole)
  · have hdigits := hspelled.fraction
    cases hlit : lit.fraction with
    | none => simp [hlit] at hfraction
    | some digits =>
      rw [hlit] at hfraction hdigits
      rcases List.mem_cons.1 hfraction with rfl | hdigit
      · rfl
      · exact isWordChar_of_isDigit (hdigits c hdigit)
  · have hexponent := hspelled.exponent
    split at hexponent
    · rw [hexponent] at htail
      contradiction
    · exact isWordChar_of_mem_exponent hexponent htail

end Token

/-! ## Integers -/

/-- A positive integer is written without a zero in front. -/
theorem Digits.head?_write_ne {n : Nat} (h : 0 < n) : (write n).head? ≠ some '0' := by
  induction n using Nat.strongRecOn with
  | ind n ih =>
    rw [write, Nat.toDigits_eq_if (by decide)]
    split
    · rename_i hsmall
      have hdigit : ∀ d < 10, 0 < d → [Nat.digitChar d].head? ≠ some '0' := by decide
      exact hdigit n hsmall h
    · rename_i hlarge
      have hne : Nat.toDigits 10 (n / 10) ≠ [] := Nat.toDigits_ne_nil
      rw [List.head?_append, Option.or_of_isSome (by simp [hne])]
      exact ih (n / 10) (by omega) (by omega)

namespace NumberLiteral

/-- An integer is written as digits that follow the notation. -/
theorem isWhole_write (n : Nat) : isWhole (Digits.write n) = true := by
  have hne : Digits.write n ≠ [] := Nat.toDigits_ne_nil
  have hdigits : (Digits.write n).all Char.isDigit = true :=
    List.all_eq_true.2 fun _ hc => Digits.isDigit_of_mem_write hc
  rw [isWhole, hdigits, Bool.and_true]
  rcases Nat.eq_zero_or_pos n with rfl | hpos
  · rfl
  · simp [hne, Digits.head?_write_ne hpos]

/-- What is written for an integer is read as its digits. -/
theorem ofChars?_write (n : Nat) :
    ofChars? (Digits.write n) = some ⟨false, Digits.write n, none, none⟩ := by
  have hdigits : ∀ c ∈ Digits.write n, c.isDigit = true :=
    fun _ hc => Digits.isDigit_of_mem_write hc
  have hsign : (Digits.write n).head? ≠ some '-' := by
    intro hhead
    have hminus := hdigits '-' (List.mem_of_head? hhead)
    contradiction
  rw [ofChars?_of_ne hsign, ofUnsigned?, List.dropWhile_eq_nil_iff.2 hdigits,
    List.takeWhile_eq_self_iff.2 hdigits]
  simp only [ofParts?, isWhole_write]
  rfl

end NumberLiteral

/-- An integer is read back from its digits. -/
theorem Scalar.numberOf?_write (n : UInt64) :
    Scalar.numberOf? (Digits.write n.toNat) = some (.natural n) := by
  rw [Scalar.numberOf?, NumberLiteral.ofChars?_write]
  simp [Digits.value_write, n.toNat_lt]

/-! ## Doubles -/

/-- The text of a number in the data notation is a literal that stands for this number again. -/
def Double.IsRestored (x : Double) : Prop :=
  (NumberLiteral.ofChars? (Scalar.realText x).toList).bind NumberLiteral.toDouble? = some x

namespace Double

/-- The text of a magnitude has a point or an exponent. -/
theorem mem_magnitudeText (rank : Nat) :
    '.' ∈ magnitudeText .data rank ∨ 'e' ∈ magnitudeText .data rank := by
  have hpositional : ∀ digits point, '.' ∈ positionalText true digits point := by
    intro digits point
    rw [positionalText]
    split
    · simp
    split <;> simp
  have hlayout : ∀ (positional : Bool) (digits : List Char) (point : Int),
      let chars := if positional then positionalText true digits point
        else scientificText digits (point - 1)
      '.' ∈ chars ∨ 'e' ∈ chars := by
    intro positional digits point
    cases positional with
    | true => exact .inl (hpositional digits point)
    | false => exact .inr (by simp [scientificText])
  rw [magnitudeText]
  split
  · exact .inl (by decide)
  · exact hlayout _ _ _

/-- The text of a number has something else than digits. -/
theorem exists_mem_realText (x : Double) :
    ∃ c ∈ (Scalar.realText x).toList, c.isDigit = false := by
  rw [Scalar.realText]
  split
  · cases x with
    | finite negative rank =>
      rw [write, String.toList_ofList]
      rcases mem_magnitudeText rank with hpoint | hexponent
      · exact ⟨'.', List.mem_append_right _ hpoint, rfl⟩
      · exact ⟨'e', List.mem_append_right _ hexponent, rfl⟩
    | infinite negative => contradiction
    | nan => contradiction
  · exact ⟨'n', by decide, rfl⟩

/-- A number that is restored is read as a double, not as an integer. -/
theorem IsRestored.numberOf?_eq {x : Double} (h : x.IsRestored) :
    Scalar.numberOf? (Scalar.realText x).toList = some (.real x) := by
  obtain ⟨lit, hlit, hx⟩ := Option.bind_eq_some_iff.1 h
  obtain ⟨tail, hspelled⟩ := NumberLiteral.spelled_of_ofChars? hlit
  have hreal : ¬(!lit.negative && lit.fraction.isNone && lit.exponent.isNone &&
      Digits.value lit.whole < 2 ^ 64) = true := by
    intro hinteger
    simp only [Bool.and_eq_true, Bool.not_eq_true', Option.isNone_iff_eq_none] at hinteger
    obtain ⟨c, hc, hdigit⟩ := exists_mem_realText x
    have hdigits := hspelled.isDigit_of_mem hinteger.1.1.1 hinteger.1.1.2 hinteger.1.2 c hc
    rw [hdigit] at hdigits
    contradiction
  rw [Scalar.numberOf?, hlit]
  show (if _ then _ else _) = _
  rw [if_neg hreal, hx]
  rfl

/-- One and a half is restored from its text. -/
theorem isRestored_oneAndHalf : (ofRatio false 3 2).IsRestored := by
  have htext : Scalar.realText (ofRatio false 3 2) = "1.5" := by decide +kernel
  have hread : NumberLiteral.ofChars? "1.5".toList = some ⟨false, ['1'], some ['5'], none⟩ := rfl
  have hdivided : NumberLiteral.divideByPower (rankOfRatio 15 1) 1 = rankOfRatio 3 2 := by
    rw [NumberLiteral.divideByPower, if_pos (.inl (by decide))]
    decide +kernel
  have hrank : rankOfRatio 3 2 < rankCount := by decide +kernel
  have hscaled : NumberLiteral.toDouble? ⟨false, ['1'], some ['5'], none⟩ =
      if h : NumberLiteral.divideByPower (rankOfRatio 15 1) 1 < rankCount
        then some (.finite false ⟨_, h⟩) else none := rfl
  rw [IsRestored, htext, hread, Option.bind_some, hscaled]
  simp only [hdivided, hrank, dite_true, ofRatio, ofRank]

end Double

/-! ## Values without parts -/

/-- A value without parts whose number, if it is one, is restored. -/
def Scalar.IsRestored : Scalar → Prop
  | .real x => x.IsRestored
  | _ => True

namespace Token

/-- The characters are a literal without quotes that is read as the token. -/
structure IsWord (token : Token) (cs : List Char) : Prop where
  /-- There are some. -/
  ne_nil : cs ≠ []
  /-- They belong to one word. -/
  isWordChar : ∀ c ∈ cs, isWordChar c = true
  /-- The word is read as the token. -/
  ofWord? : ofWord? cs = some token

/-- A number literal is read as its number. -/
theorem isWord_of_numberOf? {cs : List Char} {s : Scalar} (h : Scalar.numberOf? cs = some s) :
    IsWord (.scalar s) cs := by
  have hkeyword : ∀ keyword ∈ ["null", "true", "false"], cs ≠ keyword.toList := by
    have hnone : ∀ keyword ∈ ["null", "true", "false"],
        Scalar.numberOf? keyword.toList = none := by decide
    rintro keyword hmem rfl
    rw [hnone keyword hmem] at h
    contradiction
  obtain ⟨lit, hlit, -⟩ := Option.bind_eq_some_iff.1 h
  refine ⟨?_, fun c hc => isWordChar_of_mem_number hlit hc, ?_⟩
  · rintro rfl
    contradiction
  · have hnull := hkeyword "null" (by decide)
    have htrue := hkeyword "true" (by decide)
    have hfalse := hkeyword "false" (by decide)
    rw [ofWord?, if_neg (mt beq_iff_eq.1 hnull), if_neg (mt beq_iff_eq.1 htrue),
      if_neg (mt beq_iff_eq.1 hfalse), h]
    rfl

/-- Every value without parts but a text is written as a word that is read as this value. -/
theorem isWord_scalarChars {s : Scalar} (hs : s.IsRestored) (htext : ∀ text, s ≠ .text text) :
    IsWord (.scalar s) (scalarChars s) := by
  cases s with
  | null => exact ⟨by decide, List.all_eq_true.1 (by decide), rfl⟩
  | bool value => cases value <;> exact ⟨by decide, List.all_eq_true.1 (by decide), rfl⟩
  | natural n => exact isWord_of_numberOf? (Scalar.numberOf?_write n)
  | real x => exact isWord_of_numberOf? hs.numberOf?_eq
  | text text => exact absurd rfl (htext text)
  | unreadable =>
    have hbeyond : Scalar.numberOf? "1e999".toList = some .unreadable := by decide +kernel
    exact isWord_of_numberOf? hbeyond

end Token

end PageTree
