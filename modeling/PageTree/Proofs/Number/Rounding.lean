import PageTree.Double.Decimal

/-! # Rounding to a double

A quotient is rounded by its value alone, in whatever terms it is written
(**`Double.rankOfRatio_mul_right`**, **`Decimal.toDouble_mul_pow`**), and the value of a finite
magnitude is rounded to that magnitude (**`Double.rankOfRatio_units`**). The sign has no part in the
rounding (**`Decimal.toDouble_eq_finite`**). -/

namespace PageTree

namespace Double

/-! ## The nearest natural -/

/-- A quotient is rounded the same way when it is expanded. -/
theorem roundHalfEven_mul_right {k : Nat} (num den : Nat) (hk : 0 < k) :
    roundHalfEven (num * k) (den * k) = roundHalfEven num den := by
  have hlt : ∀ a b, a * k < b * k ↔ a < b := fun _ _ => Nat.mul_lt_mul_right hk
  simp only [roundHalfEven, Nat.mul_div_mul_right _ _ hk, Nat.mul_mod_mul_right, ← Nat.mul_assoc,
    hlt]

/-- A whole quotient stays as it is. -/
theorem roundHalfEven_mul_self {den : Nat} (q : Nat) (hden : 0 < den) :
    roundHalfEven (q * den) den = q := by
  simp only [roundHalfEven, Nat.mul_mod_left, Nat.mul_div_cancel _ hden, Nat.mul_zero, if_pos hden]

/-! ## The nearest rank -/

/-- The terms of a quotient may have a common factor. -/
theorem rankOfRatio_mul_right {k : Nat} (num den : Nat) (hk : 0 < k) :
    rankOfRatio (num * k) (den * k) = rankOfRatio num den := by
  simp only [rankOfRatio]
  rw [Nat.mul_right_comm num k, Nat.mul_div_mul_right _ _ hk, Nat.mul_right_comm den k,
    roundHalfEven_mul_right _ _ hk]

/-- Doubling moves the leading bit up. -/
theorem log2_mul_two_pow {n : Nat} (hn : 0 < n) (k : Nat) : (n * 2 ^ k).log2 = n.log2 + k := by
  have hne : n * 2 ^ k ≠ 0 := Nat.ne_of_gt (Nat.mul_pos hn (Nat.two_pow_pos k))
  obtain ⟨hlow, hhigh⟩ := (Nat.log2_eq_iff (Nat.ne_of_gt hn)).1 rfl
  refine (Nat.log2_eq_iff hne).2 ⟨?_, ?_⟩
  · rw [Nat.pow_add]
    exact Nat.mul_le_mul_right _ hlow
  · rw [Nat.add_right_comm, Nat.pow_add]
    exact Nat.mul_lt_mul_of_pos_right hhigh (Nat.two_pow_pos k)

/-- The leading bit of the magnitude of a rank, counted from the 53rd. -/
theorem log2_units_sub (rank : Nat) : (units rank).log2 - 52 = rank / 2 ^ 52 - 1 := by
  rw [units]
  split
  next hsubnormal =>
    rw [Nat.div_eq_of_lt hsubnormal, Nat.sub_eq_zero_of_le]
    by_cases hzero : rank = 0
    · simp [hzero]
    · exact Nat.le_of_lt ((Nat.log2_lt hzero).2 hsubnormal)
  next =>
    -- the significand has 53 bits, and the step of the binade moves the first of them up
    have hsignificand : (2 ^ 52 + rank % 2 ^ 52).log2 = 52 :=
      (Nat.log2_eq_iff (by omega)).2 ⟨Nat.le_add_right _ _, by omega⟩
    rw [log2_mul_two_pow (by omega), hsignificand, Nat.add_sub_cancel_left]

/-- **The value of a rank is rounded to that rank.** -/
theorem rankOfRatio_units (rank : Nat) : rankOfRatio (units rank) (2 ^ 1074) = rank := by
  have hunit : 0 < 2 ^ 1074 := Nat.two_pow_pos 1074
  rw [rankOfRatio]
  generalize 2 ^ 1074 = unit at *
  simp only [Nat.mul_div_cancel _ hunit, log2_units_sub]
  rw [Nat.mul_comm unit, roundHalfEven_mul_right _ _ hunit]
  have hstep : 0 < 2 ^ (rank / 2 ^ 52 - 1) := Nat.two_pow_pos _
  rw [units]
  split
  next hsubnormal =>
    rw [Nat.div_eq_of_lt hsubnormal]
    simpa using roundHalfEven_mul_self rank Nat.one_pos
  next hnormal =>
    rw [roundHalfEven_mul_self _ hstep]
    omega

/-! ## Bounds -/

/-- A rank above zero is some units high. -/
theorem units_pos {rank : Nat} (h : 0 < rank) : 0 < units rank := by
  rw [units]
  split
  next => exact h
  next => exact Nat.mul_pos (by omega) (Nat.two_pow_pos _)

/-- The magnitudes of the first binades, one of them subnormal, have 53 bits and a step. -/
theorem units_lt {rank : Nat} (binades : Nat) (h : rank < (binades + 2) * 2 ^ 52) :
    units rank < 2 ^ 53 * 2 ^ binades := by
  rw [units]
  split
  next hsubnormal =>
    have hsmall : rank < 2 ^ 53 := by omega
    exact Nat.lt_of_lt_of_le hsmall (Nat.le_mul_of_pos_right _ (Nat.two_pow_pos binades))
  next =>
    have hhigh : 2 ^ 52 + rank % 2 ^ 52 < 2 ^ 53 := by omega
    have hbinade : rank / 2 ^ 52 - 1 ≤ binades := by omega
    calc (2 ^ 52 + rank % 2 ^ 52) * 2 ^ (rank / 2 ^ 52 - 1)
        < 2 ^ 53 * 2 ^ (rank / 2 ^ 52 - 1) :=
          Nat.mul_lt_mul_of_pos_right hhigh (Nat.two_pow_pos _)
      _ ≤ 2 ^ 53 * 2 ^ binades :=
          Nat.mul_le_mul_left _ (Nat.pow_le_pow_right (by decide) hbinade)

/-- A rank that is not too large gives a finite number. -/
theorem ofRank_of_lt {rank : Nat} (h : rank < rankCount) (negative : Bool) :
    ofRank negative rank = .finite negative ⟨rank, h⟩ :=
  dif_pos h

/-- The sign has no part in whether a rank is that of a finite number. -/
theorem ofRank_eq_finite {n : Nat} {rank : Fin rankCount}
    (h : ofRank false n = .finite false rank) (negative : Bool) :
    ofRank negative n = .finite negative rank := by
  by_cases hn : n < rankCount
  · rw [ofRank_of_lt hn] at h ⊢
    cases h
    rfl
  · rw [ofRank, dif_neg hn] at h
    contradiction

end Double

/-! ## Decimals -/

namespace Decimal

/-- A number has at most so many digits exactly when it is below the power of ten. -/
theorem digitCount_le_iff {n k : Nat} (hk : 0 < k) : digitCount n ≤ k ↔ n < 10 ^ k :=
  Nat.length_toDigits_le_iff (by decide) hk

/-- Every power of ten is one more digit. -/
theorem digitCount_mul_pow {n : Nat} (hn : 0 < n) (k : Nat) :
    digitCount (n * 10 ^ k) = digitCount n + k := by
  induction k with
  | zero => rw [Nat.pow_zero, Nat.mul_one, Nat.add_zero]
  | succ k ih =>
    have hpos : 0 < n * 10 ^ k := Nat.mul_pos hn (Nat.pow_pos (by decide))
    have hdigits := Nat.toDigits_append_toDigits (by decide : 1 < 10) hpos (by decide : 0 < 10)
    rw [Nat.add_zero, Nat.mul_comm 10, Nat.mul_assoc, ← Nat.pow_succ] at hdigits
    rw [digitCount, Digits.write, ← hdigits, List.length_append, ← Nat.add_assoc, ← ih]
    rfl

/-- A decimal that is neither too large nor too small is rounded as a quotient. -/
theorem toDouble_eq_ofRatio {n : Nat} {e : Int} (hn : n ≠ 0) (hlarge : digitCount n + e ≤ 310)
    (hsmall : -330 ≤ digitCount n + e) (negative : Bool) :
    toDouble ⟨n, e⟩ negative =
      .ofRatio negative (n * 10 ^ e.toNat) (10 ^ (-e).toNat) := by
  simp only [toDouble, ratio]
  rw [if_neg hn, if_neg (by omega), if_neg (by omega)]

/-- A power of ten may stand in the significand or in the exponent. -/
theorem toDouble_mul_pow (n k : Nat) (e : Int) (negative : Bool) :
    toDouble ⟨n * 10 ^ k, e⟩ negative = toDouble ⟨n, e + k⟩ negative := by
  by_cases hn : n = 0
  · simp [toDouble, hn]
  have hpos : 0 < n := Nat.pos_of_ne_zero hn
  have hne : n * 10 ^ k ≠ 0 := Nat.mul_ne_zero hn (Nat.ne_of_gt (Nat.pow_pos (by decide)))
  -- the terms of the one quotient are those of the other times a power of ten
  obtain ⟨c, hup, hdown⟩ : ∃ c, k + e.toNat = (e + k).toNat + c ∧
      (-e).toNat = (-(e + k)).toNat + c := ⟨(-e).toNat - (-(e + k)).toNat, by omega, by omega⟩
  have hratio : Double.ofRatio negative (n * 10 ^ k * 10 ^ e.toNat) (10 ^ (-e).toNat) =
      Double.ofRatio negative (n * 10 ^ (e + k).toNat) (10 ^ (-(e + k)).toNat) := by
    rw [Nat.mul_assoc, ← Nat.pow_add, hup, hdown, Nat.pow_add, Nat.pow_add, ← Nat.mul_assoc,
      Double.ofRatio, Double.rankOfRatio_mul_right _ _ (Nat.pow_pos (by decide)), Double.ofRatio]
  have hmagnitude : ((digitCount n + k : Nat) : Int) + e = digitCount n + (e + k) := by omega
  simp only [toDouble, ratio, if_neg hn, if_neg hne, digitCount_mul_pow hpos, hmagnitude, hratio]

/-- The decimal expansion of a natural over a power of two is rounded as this quotient. -/
theorem toDouble_mul_five_pow {n k : Nat} (hn : 0 < n)
    (hlarge : digitCount (n * 5 ^ k) ≤ 310 + k) (hsmall : k ≤ 330 + digitCount (n * 5 ^ k))
    (negative : Bool) :
    toDouble ⟨n * 5 ^ k, -k⟩ negative = .ofRatio negative n (2 ^ k) := by
  have hfive : 0 < 5 ^ k := Nat.pow_pos (by decide)
  have hten : 10 ^ k = 2 ^ k * 5 ^ k := Nat.mul_pow 2 5 k
  have hne : n * 5 ^ k ≠ 0 := Nat.ne_of_gt (Nat.mul_pos hn hfive)
  have hup : (-(k : Int)).toNat = 0 := by omega
  have hdown : (- -(k : Int)).toNat = k := by omega
  rw [toDouble_eq_ofRatio hne (by omega) (by omega), hup, hdown, Nat.pow_zero, Nat.mul_one, hten,
    Double.ofRatio, Double.rankOfRatio_mul_right _ _ hfive, Double.ofRatio]

/-- The sign of a decimal is that of its number. -/
theorem toDouble_eq_finite {d : Decimal} {rank : Fin Double.rankCount}
    (h : d.toDouble false = .finite false rank) (negative : Bool) :
    d.toDouble negative = .finite negative rank := by
  simp only [toDouble] at h ⊢
  split at h
  next =>
    cases h
    rw [if_pos ‹_›]
    rfl
  next =>
    rw [if_neg ‹_›]
    split at h
    next => contradiction
    next =>
      rw [if_neg ‹_›]
      split at h
      next =>
        cases h
        rw [if_pos ‹_›]
        rfl
      next =>
        rw [if_neg ‹_›]
        exact Double.ofRank_eq_finite h negative

end Decimal

end PageTree
