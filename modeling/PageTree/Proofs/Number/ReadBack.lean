import Mathlib.Data.List.Induction
import Mathlib.Data.List.TakeDrop
import Mathlib.Data.List.TakeWhile
import PageTree.Proofs.NumberText
import PageTree.Proofs.Number.Rounding

/-! # A number is read back from its text

The decimal that a magnitude is written with is rounded back to it (**`Double.toDouble_shortest`**):
a decimal on a grid was tried before it was taken, and the exact expansion behind them is read back
because it is exact. However its digits are laid out around the point, the decimal is the same up to
zeros at its end (**`Decimal.ofText?_positionalText`**). Main statement: `Double.ofText?_toText`, a
finite number is read back from its text. -/

namespace PageTree

/-! ## Runs of digits -/

namespace Digits

/-- Digits in front count by the digits that follow. -/
theorem value_append (front back : List Char) :
    value (front ++ back) = value front * 10 ^ back.length + value back := by
  induction back using List.reverseRecOn with
  | nil => simp
  | append_singleton back c ih =>
    rw [← List.append_assoc, value_append_singleton, ih, value_append_singleton,
      List.length_append, List.length_singleton, Nat.pow_succ, ← Nat.mul_assoc]
    omega

/-- Zeros count nothing. -/
theorem value_replicate_zero (k : Nat) : value (List.replicate k '0') = 0 := by
  induction k with
  | zero => rfl
  | succ k ih =>
    rw [List.replicate_succ', value_append_singleton, ih]
    rfl

/-- Zeros behind the digits are a power of ten. -/
theorem value_append_replicate (digits : List Char) (k : Nat) :
    value (digits ++ List.replicate k '0') = value digits * 10 ^ k := by
  rw [value_append, value_replicate_zero, List.length_replicate, Nat.add_zero]

/-- Zeros in front of the digits make no difference. -/
theorem value_replicate_append (k : Nat) (digits : List Char) :
    value (List.replicate k '0' ++ digits) = value digits := by
  rw [value_append, value_replicate_zero, Nat.zero_mul, Nat.zero_add]

end Digits

namespace Double

/-- The digits of a number are the significant ones and zeros. -/
theorem significantDigits_append (n : Nat) :
    (significantDigits n).1 ++ List.replicate (significantDigits n).2 '0' = Digits.write n := by
  simp only [significantDigits]
  generalize hdigits : (Digits.write n).reverse = digits
  have hzeros : digits.takeWhile (· == '0') =
      List.replicate (digits.takeWhile (· == '0')).length '0' :=
    List.eq_replicate_of_mem fun c hc => by
      simpa using List.all_eq_true.1 List.all_takeWhile c hc
  -- the digits are reversed, so that the zeros behind the number stand in front
  rw [← List.reverse_inj, List.reverse_append, List.reverse_reverse, List.reverse_replicate,
    hdigits, ← hzeros]
  exact List.prefix_iff_eq_append.1 (List.takeWhile_prefix _)

/-- A natural is its significant digits times a power of ten. -/
theorem value_significantDigits (n : Nat) :
    Digits.value (significantDigits n).1 * 10 ^ (significantDigits n).2 = n := by
  rw [← Digits.value_append_replicate, significantDigits_append, Digits.value_write]

/-! ## The shortest decimal -/

/-- A decimal taken from a grid reads back as the rank it is for. -/
theorem toDouble_of_onGrid? {tieToEven : Bool} {rank : Nat} {e : Int} {d : Decimal}
    (h : onGrid? tieToEven rank e = some d) : d.toDouble false = ofRank false rank := by
  simp only [onGrid?] at h
  split at h
  next hlower _ =>
    cases h
    exact eq_of_beq hlower
  next _ hupper =>
    cases h
    exact eq_of_beq hupper
  next => contradiction
  next hlower hupper =>
    -- both neighbours read back, so whichever is nearer does
    repeat' split at h
    all_goals cases h
    · exact eq_of_beq hlower
    · exact eq_of_beq hupper
    · exact eq_of_beq hlower
    · exact eq_of_beq hupper

/-- The digits of the decimal expansion of a magnitude are neither too many nor too few. -/
theorem digitCount_expansion {rank : Nat} (hpos : 0 < rank) (hlt : rank < rankCount) :
    744 ≤ Decimal.digitCount (units rank * 5 ^ 1074) ∧
      Decimal.digitCount (units rank * 5 ^ 1074) ≤ 1384 := by
  constructor
  · rw [← Nat.not_lt, Nat.lt_succ_iff, Decimal.digitCount_le_iff (by decide), Nat.not_lt]
    calc 10 ^ 743 ≤ 5 ^ 1074 := by decide +kernel
      _ ≤ units rank * 5 ^ 1074 := Nat.le_mul_of_pos_left _ (units_pos hpos)
  · refine (Decimal.digitCount_le_iff (by decide)).2 ?_
    calc units rank * 5 ^ 1074 < 2 ^ 53 * 2 ^ 2045 * 5 ^ 1074 :=
          Nat.mul_lt_mul_of_pos_right (units_lt 2045 hlt) (Nat.pow_pos (by decide))
      _ ≤ 10 ^ 1384 := by decide +kernel

/-- The decimal expansion of a magnitude reads back as its rank. -/
theorem toDouble_expansion {rank : Nat} (hpos : 0 < rank) (hlt : rank < rankCount) :
    Decimal.toDouble ⟨units rank * 5 ^ 1074, -1074⟩ false = ofRank false rank := by
  obtain ⟨hleast, hmost⟩ := digitCount_expansion hpos hlt
  calc Decimal.toDouble ⟨units rank * 5 ^ 1074, -1074⟩ false
      = ofRatio false (units rank) (2 ^ 1074) :=
        Decimal.toDouble_mul_five_pow (units_pos hpos) (by omega) (by omega) false
    _ = ofRank false rank := by rw [ofRatio, rankOfRatio_units]

/-- **The shortest decimal reads back as its rank,** with either sign. -/
theorem toDouble_shortest {rank : Nat} (tieToEven : Bool) (hpos : 0 < rank)
    (hlt : rank < rankCount) (negative : Bool) :
    (shortest tieToEven rank).toDouble negative = .finite negative ⟨rank, hlt⟩ := by
  refine Decimal.toDouble_eq_finite ?_ negative
  rw [← ofRank_of_lt hlt]
  simp only [shortest]
  cases hfound : (List.range 17).findSome? fun n : Nat =>
      onGrid? tieToEven rank (leadingExponent (units rank) - n) with
  | some d =>
    obtain ⟨n, -, hgrid⟩ := List.exists_of_findSome?_eq_some hfound
    exact toDouble_of_onGrid? hgrid
  | none => exact toDouble_expansion hpos hlt

end Double

/-! ## Reading a sign -/

namespace Decimal

/-- The sign in front of a text, and the text behind it. -/
def takeSign : List Char → Bool × List Char
  | '-' :: cs => (true, cs)
  | '+' :: cs => (false, cs)
  | cs => (false, cs)

/-- A text without a sign in front is not negative. -/
theorem takeSign_eq_self {cs : List Char} (h : ∀ c ∈ cs.head?, c ≠ '-' ∧ c ≠ '+') :
    takeSign cs = (false, cs) := by
  unfold takeSign
  split
  next => exact absurd rfl (h '-' rfl).1
  next => exact absurd rfl (h '+' rfl).2
  next => rfl

/-- Only a sign is taken off. -/
theorem mem_takeSign {cs : List Char} {c : Char} (hc : c ∈ cs) (hminus : c ≠ '-')
    (hplus : c ≠ '+') : c ∈ (takeSign cs).2 := by
  unfold takeSign
  split
  next => exact (List.mem_cons.1 hc).resolve_left hminus
  next => exact (List.mem_cons.1 hc).resolve_left hplus
  next => exact hc

end Decimal

/-! ## Reading digits around a point -/

namespace Decimal

variable {whole part digits : List Char}

/-- The digits in front are taken off, if no digit stands behind them. -/
theorem span_isDigit {rest : List Char} (hdigits : ∀ c ∈ digits, c.isDigit = true)
    (hrest : ∀ c ∈ rest.head?, c.isDigit = false) :
    (digits ++ rest).span Char.isDigit = (digits, rest) := by
  rw [List.span_eq_takeWhile_dropWhile, List.takeWhile_append_of_pos hdigits,
    List.dropWhile_append_of_pos hdigits]
  cases rest with
  | nil => simp
  | cons c rest =>
    have hc : c.isDigit = false := hrest c rfl
    simp [hc]

/-- Digits are taken to their end. -/
theorem span_isDigit_self (hdigits : ∀ c ∈ digits, c.isDigit = true) :
    digits.span Char.isDigit = (digits, []) := by
  have hspan := @span_isDigit digits [] hdigits (by simp)
  rwa [List.append_nil] at hspan

/-- Digits alone are read as their value. -/
theorem ofText?_whole (hwhole : ∀ c ∈ whole, c.isDigit = true) (hne : whole ≠ []) :
    ofText? whole = some ⟨Digits.value whole, 0⟩ := by
  simp only [ofText?, span_isDigit_self hwhole]
  simp [exponentOf?, hne]

/-- Digits around a point are read with as many decimal places as follow it. -/
theorem ofText?_point (hwhole : ∀ c ∈ whole, c.isDigit = true)
    (hpart : ∀ c ∈ part, c.isDigit = true) (hne : whole ≠ [] ∨ part ≠ []) :
    ofText? (whole ++ '.' :: part) = some ⟨Digits.value (whole ++ part), -part.length⟩ := by
  have hpoint : ∀ c ∈ ('.' :: part).head?, c.isDigit = false := by simp
  have hany : ¬(whole.isEmpty && part.isEmpty) = true := by simpa [imp_iff_not_or] using hne
  simp only [ofText?, span_isDigit hwhole hpoint, span_isDigit_self hpart, if_neg hany]
  simp [exponentOf?]

/-- Digits laid out around the point are read as the decimal with the point in its place. -/
theorem ofText?_positionalText (hdigits : ∀ c ∈ digits, c.isDigit = true) (point : Int) :
    ∃ d, ofText? (Double.positionalText false digits point) = some d ∧
      ∀ negative, d.toDouble negative =
        toDouble ⟨Digits.value digits, point - digits.length⟩ negative := by
  have hzeros : ∀ k, ∀ c ∈ List.replicate k '0', c.isDigit = true := by
    intro k c hc
    rw [(List.mem_replicate.1 hc).2]
    rfl
  by_cases hpoint : point ≤ 0
  · -- all digits stand behind the point, with zeros in front of them
    have hpart : ∀ c ∈ List.replicate (-point).toNat '0' ++ digits, c.isDigit = true :=
      List.forall_mem_append.2 ⟨hzeros _, hdigits⟩
    rw [Double.positionalText, if_pos hpoint]
    refine ⟨_, ofText?_point (hzeros 1) hpart (.inl (List.cons_ne_nil _ _)), fun negative => ?_⟩
    rw [Digits.value_replicate_append, Digits.value_replicate_append, List.length_append,
      List.length_replicate]
    congr 2
    omega
  by_cases hlength : (digits.length : Int) ≤ point
  · -- all digits stand in front of where the point would be, with zeros behind them
    have hwhole : ∀ c ∈ digits ++ List.replicate (point.toNat - digits.length) '0',
        c.isDigit = true := List.forall_mem_append.2 ⟨hdigits, hzeros _⟩
    have hne := Double.positionalText_ne_nil digits point
    rw [Double.positionalText, if_neg hpoint, if_pos hlength, if_neg Bool.false_ne_true,
      List.append_nil] at hne ⊢
    refine ⟨_, ofText?_whole hwhole hne, fun negative => ?_⟩
    rw [Digits.value_append_replicate, toDouble_mul_pow]
    congr 2
    omega
  · -- the point stands between the digits
    have htake : ∀ c ∈ digits.take point.toNat, c.isDigit = true :=
      fun c hc => hdigits c (List.mem_of_mem_take hc)
    have hdrop : ∀ c ∈ digits.drop point.toNat, c.isDigit = true :=
      fun c hc => hdigits c (List.mem_of_mem_drop hc)
    have hne : digits.drop point.toNat ≠ [] := by
      rw [Ne, List.drop_eq_nil_iff]
      omega
    rw [Double.positionalText, if_neg hpoint, if_neg hlength]
    refine ⟨_, ofText?_point htake hdrop (.inr hne), fun negative => ?_⟩
    rw [List.take_append_drop, List.length_drop]
    congr 2
    omega

/-! ### Characters that are not read -/

/-- Whether a character can stand in a decimal. -/
def isDecimalChar (c : Char) : Bool :=
  c.isDigit || c == '.' || c == 'e' || c == 'E' || c == '-' || c == '+'

/-- What cannot stand in a decimal is no sign. -/
theorem ne_sign_of_isDecimalChar {c : Char} (h : isDecimalChar c = false) : c ≠ '-' ∧ c ≠ '+' := by
  constructor <;> rintro rfl <;> contradiction

/-- What cannot stand in a decimal cannot stand in an exponent. -/
theorem exponentOf?_eq_none {cs : List Char} {c : Char} (hc : c ∈ cs)
    (h : isDecimalChar c = false) : exponentOf? cs = none := by
  obtain ⟨hminus, hplus⟩ := ne_sign_of_isDecimalChar h
  simp only [isDecimalChar, Bool.or_eq_false_iff, beq_eq_false_iff_ne] at h
  cases cs with
  | nil => contradiction
  | cons mark rest =>
    by_cases hmark : (mark == 'e' || mark == 'E') = true
    · have hne : c ≠ mark := by
        rintro rfl
        simp [h] at hmark
      have hrest := mem_takeSign ((List.mem_cons.1 hc).resolve_left hne) hminus hplus
      have hdigits : ((takeSign rest).2.isEmpty || !(takeSign rest).2.all Char.isDigit) = true := by
        rw [Bool.or_eq_true, Bool.not_eq_true']
        refine .inr (Bool.eq_false_iff.2 fun hall => ?_)
        rw [List.all_eq_true.1 hall c hrest] at h
        simp at h
      exact (if_pos hmark).trans (if_pos hdigits)
    · exact if_neg hmark

/-- A text with a character that cannot stand in a decimal is not read as one. -/
theorem ofText?_eq_none {cs : List Char} {c : Char} (hc : c ∈ cs)
    (h : isDecimalChar c = false) : ofText? cs = none := by
  have hdigit : ¬c.isDigit = true := by
    intro hdigit
    simp [isDecimalChar, hdigit] at h
  have hdrop : ∀ cs : List Char, c ∈ cs → c ∈ cs.dropWhile Char.isDigit := by
    intro cs hc
    rw [← List.takeWhile_append_dropWhile (p := Char.isDigit) (l := cs), List.mem_append] at hc
    exact hc.resolve_left fun htake => hdigit (List.all_eq_true.1 List.all_takeWhile c htake)
  have hexponent : ∀ rest : List Char, c ∈ rest → exponentOf? rest = none :=
    fun rest hrest => exponentOf?_eq_none hrest h
  have hrest := hdrop cs hc
  simp only [ofText?, List.span_eq_takeWhile_dropWhile]
  generalize cs.dropWhile Char.isDigit = rest at hrest
  split
  next tail =>
    have htail : c ∈ tail := (List.mem_cons.1 hrest).resolve_left fun hpoint => by
      rw [hpoint] at h
      contradiction
    rw [hexponent _ (hdrop tail htail), Option.map_none, ite_self]
  next => rw [hexponent rest hrest, Option.map_none, ite_self]

end Decimal

/-! ## The text of a number -/

namespace Double

open Decimal (takeSign takeSign_eq_self)

/-- The layout of a magnitude in styles: the significant digits of its shortest decimal around the
point. -/
theorem magnitudeText_plain_eq {rank : Nat} (h : rank ≠ 0) :
    magnitudeText .plain rank =
      let d := shortest false rank
      let significant := significantDigits d.significand
      positionalText false significant.1
        (d.exponent + significant.2 + significant.1.length) := by
  rw [magnitudeText, if_neg h]
  rfl

/-- A magnitude is read back from its text. -/
theorem ofText?_magnitudeText (negative : Bool) (rank : Fin rankCount) :
    (Decimal.ofText? (magnitudeText .plain rank)).map (·.toDouble negative) =
      some (.finite negative rank) := by
  by_cases hzero : rank.val = 0
  · have hrank : rank = ⟨0, by decide⟩ := Fin.ext hzero
    rw [hrank]
    rfl
  · have hread := toDouble_shortest false (Nat.pos_of_ne_zero hzero) rank.isLt negative
    rw [magnitudeText_plain_eq hzero]
    generalize shortest false rank = d at hread ⊢
    obtain ⟨found, hfound, hdouble⟩ := Decimal.ofText?_positionalText
      (fun _ hc => isDigit_of_mem_significantDigits (n := d.significand) hc)
      (d.exponent + (significantDigits d.significand).2 +
        (significantDigits d.significand).1.length)
    rw [hfound, Option.map_some, hdouble, Int.add_sub_cancel, ← Decimal.toDouble_mul_pow,
      value_significantDigits]
    exact congrArg some hread

/-- The letters of the words that are read for an infinity and for not-a-number. -/
def wordLetters : List Char := ['i', 'n', 'f', 't', 'y', 'a']

/-- Digits have no case. -/
theorem toLower_of_isDigit {c : Char} (h : c.isDigit = true) : c.toLower = c := by
  have hdigit : c.val ≤ '9'.val := by
    rw [Char.isDigit, Bool.and_eq_true, decide_eq_true_eq, decide_eq_true_eq] at h
    exact h.2
  have hcapital : ¬(c.val ≥ 'A'.val ∧ c.val ≤ 'Z'.val) := by
    rintro ⟨hleast, -⟩
    exact absurd (UInt32.le_trans hleast hdigit) (by decide)
  exact dif_neg hcapital

/-- A text that has another character behind its sign than the words have is read as a decimal. -/
theorem ofText?_eq_decimal {s : String} {c : Char} (hc : c ∈ (takeSign s.toList).2)
    (hletter : c.toLower ∉ wordLetters) :
    ofText? s = (Decimal.ofText? (takeSign s.toList).2).map
      (·.toDouble (takeSign s.toList).1) := by
  have hword : ∀ word : String, word.toList ⊆ wordLetters →
      ¬String.ofList ((takeSign s.toList).2.map Char.toLower) = word := by
    intro word hletters heq
    rw [← heq, String.toList_ofList] at hletters
    exact hletter (hletters (List.mem_map_of_mem hc))
  have hinfinite : ¬(String.ofList ((takeSign s.toList).2.map Char.toLower) == "inf" ||
      String.ofList ((takeSign s.toList).2.map Char.toLower) == "infinity") = true := by
    simp [hword "inf" (by decide), hword "infinity" (by decide)]
  have hnumber : ¬(String.ofList ((takeSign s.toList).2.map Char.toLower) == "nan") = true := by
    simp [hword "nan" (by decide)]
  rw [ofText?]
  exact (if_neg hinfinite).trans (if_neg hnumber)

/-- Behind its sign, a text of digits and points is read as a decimal. -/
theorem ofText?_signed {cs : List Char} (hcs : ∀ c ∈ cs, c.isDigit = true ∨ c = '.')
    (hne : cs ≠ []) (negative : Bool) :
    ofText? (String.ofList ((if negative then ['-'] else []) ++ cs)) =
      (Decimal.ofText? cs).map (·.toDouble negative) := by
  have hsign : takeSign ((if negative then ['-'] else []) ++ cs) = (negative, cs) := by
    cases negative with
    | true => rfl
    | false =>
      refine takeSign_eq_self fun c hc => ⟨?_, ?_⟩ <;> rintro rfl
      · exact absurd (hcs _ (List.mem_of_mem_head? hc)) (by decide)
      · exact absurd (hcs _ (List.mem_of_mem_head? hc)) (by decide)
  -- a digit or a point in the text tells it from the words for an infinity and for not-a-number
  obtain ⟨c, hc⟩ := List.exists_mem_of_ne_nil cs hne
  have hletter : c.toLower ∉ wordLetters := by
    rcases hcs c hc with hdigit | rfl
    · rw [toLower_of_isDigit hdigit]
      have hletters : (wordLetters.all fun letter => !letter.isDigit) = true := by decide
      intro hmem
      have hnone := List.all_eq_true.1 hletters c hmem
      rw [hdigit] at hnone
      contradiction
    · decide
  rw [ofText?_eq_decimal (c := c), String.toList_ofList, hsign]
  · rwa [String.toList_ofList, hsign]
  · exact hletter

/-- **A finite number is read back from its text.** -/
theorem ofText?_toText {x : Double} (hx : x.isFinite = true) : ofText? x.toText = some x := by
  cases x with
  | finite negative rank =>
    obtain ⟨hchars, hne⟩ := magnitudeText_plain rank
    rw [toText, write, ofText?_signed hchars hne, ofText?_magnitudeText]
  | infinite negative => contradiction
  | nan => contradiction

/-- A text with a character that neither decimals nor the words have is not read. -/
theorem ofText?_eq_none {s : String} {c : Char} (hc : c ∈ s.toList)
    (hdecimal : Decimal.isDecimalChar c = false) (hletter : c.toLower ∉ wordLetters) :
    ofText? s = none := by
  obtain ⟨hminus, hplus⟩ := Decimal.ne_sign_of_isDecimalChar hdecimal
  have hrest := Decimal.mem_takeSign hc hminus hplus
  rw [ofText?_eq_decimal hrest hletter, Decimal.ofText?_eq_none hrest hdecimal, Option.map_none]

end Double

end PageTree
