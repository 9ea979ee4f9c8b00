/-! # Decimal digits

Naturals as runs of decimal digits. **`Digits.value`** reads a run and **`Digits.write`** writes one
without superfluous zeros. Main statement: `value_write`, a natural is read back from its digits. -/

namespace PageTree.Digits

-- powers of naturals are the ones of the core library, whatever else is imported
attribute [instance (2000), default_instance (20000)] instPowNat

/-- The value of a run of decimal digits. -/
def value (digits : List Char) : Nat :=
  digits.foldl (fun n c => 10 * n + (c.toNat - '0'.toNat)) 0

/-- The digits of a natural. -/
def write (n : Nat) : List Char := Nat.toDigits 10 n

/-- The digits of a natural as a text. -/
def text (n : Nat) : String := String.ofList (write n)

/-- No digits stand for zero. -/
@[simp] theorem value_nil : value [] = 0 := rfl

/-- Another digit makes ten of what stands before it. -/
theorem value_append_singleton (digits : List Char) (c : Char) :
    value (digits ++ [c]) = 10 * value digits + (c.toNat - '0'.toNat) := by
  simp [value]

/-- A natural is read back from its digits. -/
theorem value_write (n : Nat) : value (write n) = n := by
  induction n using Nat.strongRecOn with
  | ind n ih =>
    by_cases h : n < 10
    · rw [write, Nat.toDigits_of_lt_base h]
      have : ∀ d < 10, value [Nat.digitChar d] = d := by decide
      exact this n h
    · have hn : write n = write (n / 10) ++ [Nat.digitChar (n % 10)] := by
        have := Nat.toDigits_append_toDigits (b := 10) (n := n / 10) (d := n % 10) (by decide)
          (by omega) (by omega)
        rw [Nat.toDigits_of_lt_base (by omega : n % 10 < 10), Nat.div_add_mod] at this
        exact this.symm
      have hd : ∀ d < 10, (Nat.digitChar d).toNat - '0'.toNat = d := by decide
      rw [hn, value_append_singleton, ih _ (by omega), hd _ (by omega)]
      omega

/-- Every digit written is a decimal digit. -/
theorem isDigit_of_mem_write {n : Nat} {c : Char} (h : c ∈ write n) : c.isDigit = true :=
  Nat.isDigit_of_mem_toDigits (by decide) (by decide) h

end PageTree.Digits
