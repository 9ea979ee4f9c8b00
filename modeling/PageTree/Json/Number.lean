import PageTree.Double.Shortest
import PageTree.Json

/-! # Number literals

The numbers of the data notation: an optional minus sign, digits without a superfluous leading zero,
an optional fraction and an optional exponent. **`Scalar.numberOf?`** reads a literal. An integer
literal without a sign that fits a word stays a natural; every other literal is a double, read in
two roundings: its leading digits, as many as fit a word, are rounded to a double, which is then
multiplied or divided by the power of ten. A literal beyond the finite doubles stands for
nothing. -/

namespace PageTree

/-- The parts of a number literal. -/
structure NumberLiteral where
  /-- Whether there is a minus sign. -/
  negative : Bool
  /-- The digits before the point. -/
  whole : List Char
  /-- The digits after the point, if there is one. -/
  fraction : Option (List Char)
  /-- The exponent, if there is one. -/
  exponent : Option Int

namespace NumberLiteral

/-- A run of digits without a superfluous zero in front. -/
def isWhole (digits : List Char) : Bool :=
  !digits.isEmpty && digits.all Char.isDigit && (digits.head? != some '0' || digits.length == 1)

/-- Splits a literal into its parts. -/
def ofChars? (cs : List Char) : Option NumberLiteral :=
  let (negative, cs) := match cs with
    | '-' :: r => (true, r)
    | r => (false, r)
  let (whole, rest) := cs.span Char.isDigit
  let (fraction, rest) := match rest with
    | '.' :: r => (some (r.takeWhile Char.isDigit), r.dropWhile Char.isDigit)
    | r => (none, r)
  if !isWhole whole || fraction == some [] then none
  else if rest.isEmpty then some ⟨negative, whole, fraction, none⟩
  else (Decimal.exponentOf? rest).map fun e => ⟨negative, whole, fraction, some e⟩

/-- Extends a natural by decimal digits as long as it fits a word; also gives the digits left
over. -/
def absorb (n : Nat) : List Char → Nat × List Char
  | [] => (n, [])
  | c :: cs =>
    let next := 10 * n + (c.toNat - '0'.toNat)
    if next < 2 ^ 64 then absorb next cs else (n, c :: cs)

/-- Divides the magnitude of a rank by a power of ten in steps of at most `10³⁰⁸`, each rounded. -/
def divideByPower (rank exponent : Nat) : Nat :=
  let step := min exponent 308
  let quotient :=
    Double.rankOfRatio (Double.units rank) (Double.units (Double.rankOfRatio (10 ^ step) 1))
  if exponent ≤ 308 ∨ quotient = 0 then quotient else divideByPower quotient (exponent - 308)
termination_by exponent

/-- Multiplies the magnitude of a rank by a power of ten, if the power is a finite double. -/
def multiplyByPower? (rank exponent : Nat) : Option Nat :=
  if rank = 0 then some 0
  else if 308 < exponent then none
  else
    some (Double.rankOfRatio
      (Double.units rank * Double.units (Double.rankOfRatio (10 ^ exponent) 1))
      (2 ^ 1074 * 2 ^ 1074))

/-- The double a literal stands for; there is none when it lies beyond the finite doubles. -/
def toDouble? (lit : NumberLiteral) : Option Double :=
  let fraction := lit.fraction.getD []
  let (head, dropped) := absorb 0 lit.whole
  let (head, ignored) := absorb head fraction
  let exponent := lit.exponent.getD 0 + dropped.length - (fraction.length - ignored.length : Nat)
  let rank := Double.rankOfRatio head 1
  let scaled :=
    if 0 ≤ exponent then multiplyByPower? rank exponent.toNat
    else some (divideByPower rank (-exponent).toNat)
  scaled.bind fun r => if h : r < Double.rankCount then some (.finite lit.negative ⟨r, h⟩) else none

end NumberLiteral

/-- Reads a number literal. -/
def Scalar.numberOf? (cs : List Char) : Option Scalar := do
  let lit ← NumberLiteral.ofChars? cs
  let n := Digits.value lit.whole
  if !lit.negative && lit.fraction.isNone && lit.exponent.isNone && n < 2 ^ 64 then
    some (.natural (UInt64.ofNat n))
  else some (lit.toDouble?.elim .unreadable .real)

/-- The text of a number; a double that is not finite has none. -/
def Scalar.realText (x : Double) : String := if x.isFinite then x.write .data else "null"

end PageTree
