import PageTree.Double
import PageTree.Text.Digits

/-! # Decimal literals

A decimal is a natural significand and a power of ten. **`Decimal.toDouble`** rounds it to the
nearest double, and **`Double.ofText?`** reads the decimal notation used in style values: an
optional sign, digits with an optional point and an optional exponent, or a word for an infinity or
not-a-number. -/

namespace PageTree

/-- The decimal `significand · 10 ^ exponent`. -/
structure Decimal where
  /-- The digits, read as a natural. -/
  significand : Nat
  /-- The power of ten that scales them. -/
  exponent : Int
  deriving DecidableEq, Repr

namespace Decimal

/-- How many decimal digits a natural is written with. -/
def digitCount (n : Nat) : Nat := (Digits.write n).length

/-- The quotient of naturals equal to a decimal. -/
def ratio (d : Decimal) : Nat × Nat :=
  (d.significand * 10 ^ d.exponent.toNat, 10 ^ (-d.exponent).toNat)

/-- The double nearest to a decimal. A decimal of `10³¹⁰` or more is beyond the largest finite
double, and one below `10⁻³³⁰` under half of the least positive one, so neither is expanded. -/
def toDouble (d : Decimal) (negative : Bool) : Double :=
  let magnitude := digitCount d.significand + d.exponent
  if d.significand = 0 then .zero negative
  else if 310 < magnitude then .infinite negative
  else if magnitude < -330 then .zero negative
  else .ofRatio negative d.ratio.1 d.ratio.2

/-- Reads the exponent that may follow the digits: nothing, or the letter `e` in either case, an
optional sign and at least one digit. -/
def exponentOf? : List Char → Option Int
  | [] => some 0
  | mark :: rest =>
    if mark == 'e' || mark == 'E' then
      let (negative, digits) := match rest with
        | '-' :: r => (true, r)
        | '+' :: r => (false, r)
        | r => (false, r)
      if digits.isEmpty || !digits.all Char.isDigit then none
      else
        let n := Digits.value digits
        some (if negative then -n else n)
    else none

/-- Reads an unsigned decimal: digits with at most one point among or beside them, at least one
digit in all, and an optional exponent. -/
def ofText? (cs : List Char) : Option Decimal :=
  let (whole, rest) := cs.span Char.isDigit
  let (part, rest) := match rest with
    | '.' :: r => r.span Char.isDigit
    | r => ([], r)
  if whole.isEmpty && part.isEmpty then none
  else (exponentOf? rest).map fun e => ⟨Digits.value (whole ++ part), e - part.length⟩

end Decimal

/-- Reads a number in decimal notation: an optional sign, then a decimal or one of the words `inf`,
`infinity` and `nan` in any letter case. A decimal is rounded to the nearest double. -/
def Double.ofText? (s : String) : Option Double :=
  let (negative, cs) := match s.toList with
    | '-' :: r => (true, r)
    | '+' :: r => (false, r)
    | r => (false, r)
  let word := String.ofList (cs.map Char.toLower)
  if word == "inf" || word == "infinity" then some (.infinite negative)
  else if word == "nan" then some .nan
  else (Decimal.ofText? cs).map (·.toDouble negative)

end PageTree
