/-! # Double-precision numbers

Numbers in the IEEE 754 binary64 format, held as exact data. A finite magnitude is its *rank*, its
position among all finite magnitudes in ascending order; **`Double.units`** is its value as a
multiple of the least positive magnitude `2⁻¹⁰⁷⁴`. **`Double.rankOfRatio`** rounds a quotient of
naturals to the nearest rank, a half going to the even one, and **`Double.ofRatio`** makes the
number, infinite past the largest finite one. -/

namespace PageTree

-- powers of naturals are the ones of the core library, whatever else is imported
attribute [instance (2000), default_instance (20000)] instPowNat

/-- How many finite magnitudes there are: 2047 binades of `2⁵²`, the first of them subnormal. -/
abbrev Double.rankCount : Nat := 2047 * 2 ^ 52

/-- A number in the binary64 format; all not-a-number patterns are one value. -/
inductive Double where
  /-- A finite number by its sign and the rank of its magnitude; rank 0 is a zero of either sign. -/
  | finite (negative : Bool) (rank : Fin Double.rankCount)
  /-- An infinity. -/
  | infinite (negative : Bool)
  /-- Not a number. -/
  | nan
  deriving DecidableEq, Repr

namespace Double

instance : Inhabited Double := ⟨.finite false ⟨0, by decide⟩⟩

/-- A zero with the given sign. -/
def zero (negative : Bool) : Double := .finite negative ⟨0, by decide⟩

/-- Whether the number is neither infinite nor not-a-number. -/
def isFinite : Double → Bool
  | .finite _ _ => true
  | _ => false

/-- Numeric equality: the two zeros are equal, and not-a-number differs from everything. -/
def agrees : Double → Double → Bool
  | .finite n r, .finite n' r' => r == r' && (n == n' || r.val == 0)
  | .infinite n, .infinite n' => n == n'
  | _, _ => false

/-! ## Ranks and values -/

/-- The magnitude of a rank as a multiple of `2⁻¹⁰⁷⁴`. The subnormal ranks count units; each later
binade doubles the step. -/
def units (rank : Nat) : Nat :=
  if rank < 2 ^ 52 then rank else (2 ^ 52 + rank % 2 ^ 52) * 2 ^ (rank / 2 ^ 52 - 1)

/-- The quotient rounded to the nearest natural, a half to the even neighbour. -/
def roundHalfEven (num den : Nat) : Nat :=
  let quotient := num / den
  let twice := 2 * (num % den)
  if twice < den then quotient
  else if den < twice then quotient + 1
  else quotient + quotient % 2

/-- The rank nearest to `num / den`, a half going to the even rank; it is `rankCount` or more when
the quotient lies beyond the finite magnitudes. The quotient is measured in units, cut to 53
significant bits, and a carry out of the top bit lands on the next binade by itself. -/
def rankOfRatio (num den : Nat) : Nat :=
  let scaled := num * 2 ^ 1074
  let shift := (scaled / den).log2 - 52
  shift * 2 ^ 52 + roundHalfEven scaled (den * 2 ^ shift)

/-- The finite number of a rank, infinite when the rank is too large. -/
def ofRank (negative : Bool) (rank : Nat) : Double :=
  if h : rank < rankCount then .finite negative ⟨rank, h⟩ else .infinite negative

/-- The number nearest to a quotient of naturals, with the given sign. -/
def ofRatio (negative : Bool) (num den : Nat) : Double := ofRank negative (rankOfRatio num den)

/-- The number nearest to a natural. -/
def ofNat (n : Nat) : Double := ofRatio false n 1

/-- The same magnitude with the other sign. -/
def neg : Double → Double
  | .finite n r => .finite (!n) r
  | .infinite n => .infinite (!n)
  | .nan => .nan

end Double

end PageTree
