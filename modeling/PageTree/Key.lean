import PageTree.Text.Digits

/-! # Keys

A key names a node within a forest: a number handed out by the editor, or a name from outside it.
**`Key.className`** is the class generated for a node that sets none; **`Key.slot?`** is the number
a key takes away from the editor's supply, which a name takes too when it is spelled like the class
of that number. **`Key.le`** orders numbers by value before names by their characters. -/

namespace PageTree

/-- The identity of a node within a forest. -/
inductive Key where
  /-- A number, as handed out by the editor. -/
  | number (value : UInt64)
  /-- A name, as found in forests from outside. -/
  | name (value : String)
  deriving DecidableEq, Repr, Hashable

namespace Key

instance : Inhabited Key := ⟨.number 0⟩

/-- A key as it is shown in messages. -/
def toText : Key → String
  | .number n => Digits.text n.toNat
  | .name s => s

/-- Whether one key comes no later than another: numbers by value, then names by their
characters. -/
def le : Key → Key → Bool
  | .number a, .number b => a ≤ b
  | .number _, .name _ => true
  | .name _, .number _ => false
  | .name a, .name b => !decide (b < a)

/-- The value of a key that is a number. -/
def number? : Key → Option UInt64
  | .number n => some n
  | .name _ => none

/-! ## Class names -/

/-- Whether a character stands for itself in a generated class, at the front or further on. -/
def isPlain (front : Bool) (c : Char) : Bool := c.isAlpha || (!front && (c.isDigit || c == '-'))

/-- What stands for one character of a name in a generated class: the character itself, or its code
point in hexadecimal between two low lines. -/
def classChars (front : Bool) (c : Char) : List Char :=
  if isPlain front c then [c] else '_' :: Nat.toDigits 16 c.toNat ++ ['_']

/-- The class generated for a name; the empty name has a single low line. -/
def classOfName : List Char → List Char
  | [] => ['_']
  | c :: cs => classChars true c ++ cs.flatMap (classChars false)

/-- The class generated for the node of a key: a number behind an `n`, since a selector cannot start
with a digit, or a name with its special characters spelled out. -/
def className : Key → String
  | .number n => String.ofList ('n' :: Digits.write n.toNat)
  | .name s => String.ofList (classOfName s.toList)

/-! ## Slots -/

/-- The word that a run of decimal digits without superfluous zeros spells, if it fits. -/
def canonicalWord? (digits : List Char) : Option UInt64 :=
  let n := Digits.value digits
  if n < 2 ^ 64 ∧ Digits.write n = digits then some (UInt64.ofNat n) else none

/-- The number that a key takes from the supply: its own, or the one whose class a name is spelled
like. -/
def slot? : Key → Option UInt64
  | .number n => some n
  | .name s =>
    match s.toList with
    | 'n' :: digits => canonicalWord? digits
    | _ => none

/-- The slot of a number is the number itself. -/
@[simp] theorem slot?_number (n : UInt64) : slot? (.number n) = some n := rfl

/-- A run of digits spells a word exactly when it is what is written for it. -/
theorem canonicalWord?_eq_some_iff {digits : List Char} {n : UInt64} :
    canonicalWord? digits = some n ↔ digits = Digits.write n.toNat := by
  simp only [canonicalWord?]
  constructor
  · intro h
    split at h
    next hn =>
      rw [← Option.some.inj h, UInt64.toNat_ofNat_of_lt' hn.1, hn.2]
    next => simp at h
  · rintro rfl
    simp [Digits.value_write, n.toNat_lt]

end Key

end PageTree
