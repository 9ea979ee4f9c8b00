import PageTree.Double.Decimal

/-! # Shortest decimal text

Writes a double with the fewest significant digits that read back as the same double, nearest to it
among those. **`Double.shortest`** finds the digits by looking at the two neighbours of the value on
the grid of one digit, two digits and so on; **`DoubleFormat`** says how they are laid out, and
**`Double.write`** lays them out. -/

namespace PageTree

/-- The decisions that a textual form of doubles leaves open. -/
structure DoubleFormat where
  /-- The range, ends included, of powers of ten of the leading digit that are written positionally;
  the others are written with an exponent. `none` writes every number positionally. -/
  positional : Option (Int × Int)
  /-- Whether an integral number written positionally ends in `.0`. -/
  fraction : Bool
  /-- Whether of two equally near candidates the one with the even last digit is taken, otherwise
  the larger one. -/
  tieToEven : Bool

/-- Numbers in styles, positions and markup are always positional. -/
def DoubleFormat.plain : DoubleFormat := ⟨none, false, false⟩

/-- Numbers in the data notation are positional from `10⁻⁵` and below `10¹⁶` and show that they are
not integers. -/
def DoubleFormat.data : DoubleFormat := ⟨some (-5, 15), true, true⟩

namespace Double

/-- The power of ten of the leading digit of the nonzero magnitude `u · 2⁻¹⁰⁷⁴`. -/
def leadingExponent (u : Nat) : Int :=
  if 2 ^ 1074 ≤ u then (Decimal.digitCount (u / 2 ^ 1074) : Int) - 1
  else -(Decimal.digitCount (2 ^ 1074 / u))

/-- The decimal nearest to a nonzero rank among those on the grid `10 ^ e` that read back as it, if
there is one: of the neighbours below and above, the one that reads back, or the nearer if both
do. -/
def onGrid? (tieToEven : Bool) (rank : Nat) (e : Int) : Option Decimal :=
  let num := units rank * 10 ^ (-e).toNat
  let den := 2 ^ 1074 * 10 ^ e.toNat
  let lower : Decimal := ⟨num / den, e⟩
  let upper : Decimal := ⟨num / den + 1, e⟩
  let readsBack (d : Decimal) : Bool := d.toDouble false == ofRank false rank
  match readsBack lower, readsBack upper with
  | true, false => some lower
  | false, true => some upper
  | false, false => none
  | true, true =>
    let twice := 2 * (num % den)
    if twice < den then some lower
    else if den < twice then some upper
    else if tieToEven && lower.significand % 2 == 0 then some lower
    else some upper

/-- The decimal with the fewest digits that reads back as a nonzero rank. Seventeen digits always
suffice; past them stands the exact decimal expansion. -/
def shortest (tieToEven : Bool) (rank : Nat) : Decimal :=
  let lead := leadingExponent (units rank)
  ((List.range 17).findSome? fun (n : Nat) => onGrid? tieToEven rank (lead - n)).getD
    ⟨units rank * 5 ^ 1074, -1074⟩

/-! ## Layout -/

/-- The digits of a natural without the zeros at their end, and the number of those zeros. -/
def significantDigits (n : Nat) : List Char × Nat :=
  let digits := (Digits.write n).reverse
  let zeros := digits.takeWhile (· == '0')
  ((digits.drop zeros.length).reverse, zeros.length)

/-- Lays digits out around the point: `point` of them, or as many with zeros filled in, before
it. -/
def positionalText (fraction : Bool) (digits : List Char) (point : Int) : List Char :=
  if point ≤ 0 then
    '0' :: '.' :: (List.replicate (-point).toNat '0' ++ digits)
  else if (digits.length : Int) ≤ point then
    digits ++ List.replicate (point.toNat - digits.length) '0' ++
      (if fraction then ['.', '0'] else [])
  else digits.take point.toNat ++ '.' :: digits.drop point.toNat

/-- Lays digits out as one digit, a point before the others if there are any, and a signed power of
ten. -/
def scientificText (digits : List Char) (exponent : Int) : List Char :=
  digits.take 1 ++ (if digits.length ≤ 1 then [] else '.' :: digits.drop 1) ++
    'e' :: (if exponent < 0 then '-' else '+') :: Digits.write exponent.natAbs

/-- The text of a finite magnitude. -/
def magnitudeText (format : DoubleFormat) (rank : Nat) : List Char :=
  if rank = 0 then '0' :: (if format.fraction then ['.', '0'] else [])
  else
    let d := shortest format.tieToEven rank
    let (digits, zeros) := significantDigits d.significand
    let point := d.exponent + zeros + digits.length
    match format.positional with
    | some (least, greatest) =>
      if least ≤ point - 1 && point - 1 ≤ greatest then positionalText format.fraction digits point
      else scientificText digits (point - 1)
    | none => positionalText format.fraction digits point

/-- The text of a double: a minus sign where it is negative, then its magnitude; the infinities are
`inf` and `-inf`, and not-a-number is `NaN`. -/
def write (format : DoubleFormat) : Double → String
  | .finite negative rank =>
    String.ofList ((if negative then ['-'] else []) ++ magnitudeText format rank)
  | .infinite negative => if negative then "-inf" else "inf"
  | .nan => "NaN"

/-- The text of a double in styles, positions and markup. -/
def toText (x : Double) : String := x.write .plain

end Double

end PageTree
