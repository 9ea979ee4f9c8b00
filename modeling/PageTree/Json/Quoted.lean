/-! # Quoted text

The characters between the quotes of a text literal. **`Quoted.encode`** writes the quote, the
reverse solidus and the control characters as escapes; **`Quoted.decode`** reads every escape of the
notation, surrogate pairs included. **`Quoted.isWellFormed`** says that a text literal follows the
notation; it may still hold half of a surrogate pair, which stands for no text. Main statement:
`decode_encode`, a text is read back from what is written for it. -/

namespace PageTree.Quoted

/-- The hexadecimal digit of a number below sixteen, in lower case. -/
def hexDigit (n : Nat) : Char := Nat.digitChar n

/-- What is written for one character. -/
def encodeChar (c : Char) : List Char :=
  if c = '"' then ['\\', '"']
  else if c = '\\' then ['\\', '\\']
  else if c = '\x08' then ['\\', 'b']
  else if c = '\t' then ['\\', 't']
  else if c = '\n' then ['\\', 'n']
  else if c = '\x0c' then ['\\', 'f']
  else if c = '\r' then ['\\', 'r']
  else if c.toNat < 0x20 then
    ['\\', 'u', '0', '0', hexDigit (c.toNat / 16), hexDigit (c.toNat % 16)]
  else [c]

/-- What is written between the quotes for a text. -/
def encode (cs : List Char) : List Char := cs.flatMap encodeChar

/-- A text is encoded character by character. -/
@[simp] theorem encode_cons (c : Char) (cs : List Char) :
    encode (c :: cs) = encodeChar c ++ encode cs :=
  rfl

/-- A text literal: the escaped text between quotes. -/
def literal (cs : List Char) : List Char := '"' :: encode cs ++ ['"']

/-- The value of a hexadecimal digit in either case. -/
def hexValue? (c : Char) : Option Nat :=
  if c.isDigit then some (c.toNat - '0'.toNat)
  else if 'a' ≤ c ∧ c ≤ 'f' then some (c.toNat - 'a'.toNat + 10)
  else if 'A' ≤ c ∧ c ≤ 'F' then some (c.toNat - 'A'.toNat + 10)
  else none

/-- The 16-bit unit of four hexadecimal digits. -/
def unit? (a b c d : Char) : Option Nat := do
  let a ← hexValue? a
  let b ← hexValue? b
  let c ← hexValue? c
  let d ← hexValue? d
  some (((a * 16 + b) * 16 + c) * 16 + d)

/-- Whether a unit is the first half of a surrogate pair. -/
def isHighSurrogate (unit : Nat) : Bool := 0xD800 ≤ unit && unit < 0xDC00

/-- Whether a unit is the second half of a surrogate pair. -/
def isLowSurrogate (unit : Nat) : Bool := 0xDC00 ≤ unit && unit < 0xE000

/-- The character of a surrogate pair. -/
def pairChar (high low : Nat) : Char :=
  Char.ofNat (0x10000 + (high - 0xD800) * 0x400 + (low - 0xDC00))

/-- The character of an escape of one letter. -/
def escaped? : Char → Option Char
  | '"' => some '"'
  | '\\' => some '\\'
  | '/' => some '/'
  | 'b' => some '\x08'
  | 'f' => some '\x0c'
  | 'n' => some '\n'
  | 'r' => some '\r'
  | 't' => some '\t'
  | _ => none

/-- Reads the characters between the quotes. Control characters must be escaped, and a surrogate
must stand in a pair. -/
def decode : List Char → Option (List Char)
  | [] => some []
  | '\\' :: 'u' :: a :: b :: c :: d :: rest =>
    match unit? a b c d with
    | none => none
    | some unit =>
      if isHighSurrogate unit then
        match rest with
        | '\\' :: 'u' :: a' :: b' :: c' :: d' :: rest' =>
          match unit? a' b' c' d' with
          | none => none
          | some low =>
            if isLowSurrogate low then (decode rest').map (pairChar unit low :: ·) else none
        | _ => none
      else if isLowSurrogate unit then none
      else (decode rest).map (Char.ofNat unit :: ·)
  | '\\' :: letter :: rest =>
    match escaped? letter with
    | none => none
    | some c => (decode rest).map (c :: ·)
  | c :: rest => if c = '\\' ∨ c.toNat < 0x20 then none else (decode rest).map (c :: ·)

/-- Whether every escape between the quotes is complete and every control character escaped. -/
def isWellFormed : List Char → Bool
  | [] => true
  | '\\' :: 'u' :: a :: b :: c :: d :: rest => (unit? a b c d).isSome && isWellFormed rest
  | '\\' :: letter :: rest => (escaped? letter).isSome && isWellFormed rest
  | c :: rest => c != '\\' && 0x20 ≤ c.toNat && isWellFormed rest

/-! ## Reading back -/

/-- A character that needs no escape is read as it stands. -/
theorem decode_plain {c : Char} (h : c ≠ '\\') (hc : ¬c.toNat < 0x20) (rest : List Char) :
    decode (c :: rest) = (decode rest).map (c :: ·) := by
  rw [decode.eq_def]
  split
  next heq => simp at heq
  next heq => exact absurd (List.cons.inj heq).1 h
  next heq => exact absurd (List.cons.inj heq).1 h
  next heq =>
    obtain ⟨rfl, rfl⟩ := List.cons.inj heq
    rw [if_neg (not_or.2 ⟨h, hc⟩)]

/-- A control character is read from its escape of four digits. -/
theorem decode_control {c : Char} (hc : c.toNat < 0x20) (rest : List Char) :
    decode ('\\' :: 'u' :: '0' :: '0' ::
        hexDigit (c.toNat / 16) :: hexDigit (c.toNat % 16) :: rest) =
      (decode rest).map (c :: ·) := by
  have hunit : ∀ n < 0x20, unit? '0' '0' (hexDigit (n / 16)) (hexDigit (n % 16)) = some n := by
    decide
  rw [decode.eq_def]
  simp only [hunit _ hc]
  have hhigh : isHighSurrogate c.toNat = false := by simp [isHighSurrogate]; omega
  have hlow : isLowSurrogate c.toNat = false := by simp [isLowSurrogate]; omega
  simp [hhigh, hlow, Char.ofNat_toNat]

/-- Decoding takes the escape of one character off the front. -/
theorem decode_encodeChar_append (c : Char) (rest : List Char) :
    decode (encodeChar c ++ rest) = (decode rest).map (c :: ·) := by
  unfold encodeChar
  split
  · subst c; rw [List.cons_append, List.cons_append, List.nil_append, decode.eq_def]; rfl
  split
  · subst c; rw [List.cons_append, List.cons_append, List.nil_append, decode.eq_def]; rfl
  split
  · subst c; rw [List.cons_append, List.cons_append, List.nil_append, decode.eq_def]; rfl
  split
  · subst c; rw [List.cons_append, List.cons_append, List.nil_append, decode.eq_def]; rfl
  split
  · subst c; rw [List.cons_append, List.cons_append, List.nil_append, decode.eq_def]; rfl
  split
  · subst c; rw [List.cons_append, List.cons_append, List.nil_append, decode.eq_def]; rfl
  split
  · subst c; rw [List.cons_append, List.cons_append, List.nil_append, decode.eq_def]; rfl
  split
  · exact decode_control ‹_› rest
  · exact decode_plain ‹_› ‹_› rest

/-- A text is read back from what is written for it. -/
theorem decode_encode (cs : List Char) : decode (encode cs) = some cs := by
  induction cs with
  | nil => rfl
  | cons c cs ih => rw [encode_cons, decode_encodeChar_append, ih]; rfl

end PageTree.Quoted
