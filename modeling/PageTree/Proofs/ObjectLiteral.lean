import PageTree.Proofs.NumberText
import PageTree.Style.Declaration

/-! # Reading object literals back

The object literal of a style read by its grammar: an entry has a name, an identifier or a text
literal, and a value, a number text or a text literal. **`ObjectLiteral.read?`** takes a literal off
the front of a text. Main statement: `ObjectLiteral.read?_objectText`, what is written for a style
is read back as the entries whose values can be written, in their order, whatever comes after it. -/

namespace PageTree

namespace ObjectLiteral

/-- The value of an entry. -/
inductive Value where
  /-- A number, by its text. -/
  | number (text : String)
  /-- A text. -/
  | text (value : String)
  deriving DecidableEq, Repr

/-- An entry: its name and its value. -/
abbrev Entry := String × Value

/-! ## Reading -/

/-- Splits a text at the first quote that is not escaped. -/
def splitQuoted? : List Char → Option (List Char × List Char)
  | [] => none
  | '"' :: rest => some ([], rest)
  | '\\' :: c :: rest => (splitQuoted? rest).map fun r => ('\\' :: c :: r.1, r.2)
  | c :: rest => (splitQuoted? rest).map fun r => (c :: r.1, r.2)

/-- Reads a text literal behind its first quote. -/
def readQuoted? (cs : List Char) : Option (String × List Char) :=
  (splitQuoted? cs).bind fun r => (Quoted.decode r.1).map fun text => (String.ofList text, r.2)

/-- Whether a character can stand in an identifier. -/
def isIdentifierChar (c : Char) : Bool := Style.isIdentifierStart c || c.isDigit

/-- Reads the name of an entry. -/
def readName? : List Char → Option (String × List Char)
  | '"' :: cs => readQuoted? cs
  | cs =>
    let name := cs.takeWhile isIdentifierChar
    if Style.isIdentifier name then some (String.ofList name, cs.dropWhile isIdentifierChar)
    else none

/-- Reads the value of an entry. -/
def readValue? : List Char → Option (Value × List Char)
  | '"' :: cs => (readQuoted? cs).map fun r => (.text r.1, r.2)
  | cs =>
    let number := cs.takeWhile Double.isNumberChar
    if number.isEmpty then none
    else some (.number (String.ofList number), cs.dropWhile Double.isNumberChar)

/-- Reads an entry. -/
def readEntry? (cs : List Char) : Option (Entry × List Char) :=
  match readName? cs with
  | some (name, ':' :: ' ' :: rest) => (readValue? rest).map fun r => ((name, r.1), r.2)
  | _ => none

/-- Reads at most so many entries and the closing brace. -/
def readEntries? : Nat → List Char → Option (List Entry × List Char)
  | 0, _ => none
  | room + 1, cs =>
    match readEntry? cs with
    | some (entry, ',' :: ' ' :: rest) =>
      (readEntries? room rest).map fun r => (entry :: r.1, r.2)
    | some (entry, ' ' :: '\x7d' :: rest) => some ([entry], rest)
    | _ => none

/-- Reads an object literal. An entry has at least one character, so the length of the text leaves
room for all of them. -/
def read? : List Char → Option (List Entry × List Char)
  | '\x7b' :: '\x7d' :: rest => some ([], rest)
  | '\x7b' :: ' ' :: rest => readEntries? rest.length rest
  | _ => none

/-! ## Text literals -/

/-- A character without a meaning of its own belongs to the literal. -/
theorem splitQuoted?_plain {c : Char} (hquote : c ≠ '"') (hsolidus : c ≠ '\\') (cs : List Char) :
    splitQuoted? (c :: cs) = (splitQuoted? cs).map fun r => (c :: r.1, r.2) := by
  rw [splitQuoted?.eq_def]
  split
  next heq => contradiction
  next heq => exact absurd (List.cons.inj heq).1 hquote
  next heq => exact absurd (List.cons.inj heq).1 hsolidus
  next heq =>
    obtain ⟨rfl, rfl⟩ := List.cons.inj heq
    rfl

/-- A character behind a backslash belongs to the literal, whatever it is. -/
theorem splitQuoted?_escape (c : Char) (cs : List Char) :
    splitQuoted? ('\\' :: c :: cs) = (splitQuoted? cs).map fun r => ('\\' :: c :: r.1, r.2) := rfl

/-- No quote in what is written for a character ends a text literal. -/
theorem splitQuoted?_encodeChar_append (c : Char) (cs : List Char) :
    splitQuoted? (Quoted.encodeChar c ++ cs) =
      (splitQuoted? cs).map fun r => (Quoted.encodeChar c ++ r.1, r.2) := by
  have hdigits : ∀ n < 0x20, Quoted.hexDigit (n / 16) ≠ '"' ∧ Quoted.hexDigit (n / 16) ≠ '\\' ∧
      Quoted.hexDigit (n % 16) ≠ '"' ∧ Quoted.hexDigit (n % 16) ≠ '\\' := by decide
  unfold Quoted.encodeChar
  -- seven characters with an escape of one letter, then the other control characters, then those
  -- that stand for themselves
  split
  · exact splitQuoted?_escape _ cs
  split
  · exact splitQuoted?_escape _ cs
  split
  · exact splitQuoted?_escape _ cs
  split
  · exact splitQuoted?_escape _ cs
  split
  · exact splitQuoted?_escape _ cs
  split
  · exact splitQuoted?_escape _ cs
  split
  · exact splitQuoted?_escape _ cs
  split
  next hcontrol =>
    obtain ⟨hq, hs, hq', hs'⟩ := hdigits _ hcontrol
    simp only [List.cons_append, List.nil_append]
    rw [splitQuoted?_escape, splitQuoted?_plain (by decide) (by decide),
      splitQuoted?_plain (by decide) (by decide), splitQuoted?_plain hq hs,
      splitQuoted?_plain hq' hs']
    simp only [Option.map_map, Function.comp_def]
  next hquote hsolidus _ _ _ _ _ _ => exact splitQuoted?_plain hquote hsolidus cs

/-- A text literal is read back, whatever comes after it. -/
theorem readQuoted?_encode (cs rest : List Char) :
    readQuoted? (Quoted.encode cs ++ '"' :: rest) = some (String.ofList cs, rest) := by
  have hsplit : splitQuoted? (Quoted.encode cs ++ '"' :: rest) =
      some (Quoted.encode cs, rest) := by
    induction cs with
    | nil => rfl
    | cons c cs ih =>
      rw [Quoted.encode_cons, List.append_assoc, splitQuoted?_encodeChar_append, ih]
      rfl
  rw [readQuoted?, hsplit, Option.bind_some, Quoted.decode_encode]
  rfl

end ObjectLiteral

/-! ## Entries -/

open ObjectLiteral

/-- What an object literal shows of a value that can be written. -/
def StyleValue.shown : StyleValue → Value
  | .unset => .text ""
  | .number x => .number x.toText
  | .text s => .text (Text.trim s)

/-- The entries of a style whose values can be written. -/
def Style.written (s : Style) : List (String × StyleValue) :=
  s.entries.filter fun entry => entry.2.isValid

/-- What an object literal shows of an entry. -/
def Style.shownEntry (entry : String × StyleValue) : Entry :=
  (PropertyName.camelCase entry.1, entry.2.shown)

/-- What the object literal of a style shows. -/
def Style.shownEntries (s : Style) : List Entry := s.written.map Style.shownEntry

namespace ObjectLiteral

/-- A run of characters up to one of another kind is taken off the front. -/
theorem takeWhile_append_cons {p : Char → Bool} {cs : List Char} {stop : Char} (rest : List Char)
    (h : ∀ c ∈ cs, p c = true) (hstop : p stop = false) :
    (cs ++ stop :: rest).takeWhile p = cs ∧ (cs ++ stop :: rest).dropWhile p = stop :: rest := by
  constructor
  · rw [List.takeWhile_append_of_pos h, List.takeWhile_cons, hstop]
    simp
  · rw [List.dropWhile_append_of_pos h, List.dropWhile_cons, hstop]
    simp

/-- A name in quotes is read as a text literal. -/
theorem readName?_quote (cs : List Char) : readName? ('"' :: cs) = readQuoted? cs := rfl

/-- A value in quotes is read as a text literal. -/
theorem readValue?_quote (cs : List Char) :
    readValue? ('"' :: cs) = (readQuoted? cs).map fun r => (.text r.1, r.2) := rfl

/-- The name of an entry is read back. -/
theorem readName?_objectName (name : String) (rest : List Char) :
    readName? ((Style.objectName name).toList ++ ':' :: rest) =
      some (PropertyName.camelCase name, ':' :: rest) := by
  rw [Style.objectName]
  split
  next hidentifier =>
    -- an identifier ends in front of the colon
    generalize hcamel : PropertyName.camelCase name = camel at hidentifier
    cases hchars : camel.toList with
    | nil =>
      rw [hchars] at hidentifier
      contradiction
    | cons c cs =>
      rw [hchars] at hidentifier
      have hchar : ∀ d ∈ c :: cs, isIdentifierChar d = true := by
        simp only [Style.isIdentifier, Bool.and_eq_true, List.all_eq_true] at hidentifier
        refine List.forall_mem_cons.2 ⟨?_, hidentifier.2⟩
        rw [isIdentifierChar, hidentifier.1, Bool.true_or]
      have hquote : c ≠ '"' := by
        rintro rfl
        exact absurd (hchar '"' List.mem_cons_self) (by decide)
      have hcolon : isIdentifierChar ':' = false := by decide
      obtain ⟨htake, hdrop⟩ := takeWhile_append_cons rest hchar hcolon
      rw [List.cons_append, readName?.eq_def]
      split
      next heq => exact absurd (List.cons.inj heq).1 hquote
      next heq =>
        rw [← List.cons_append, htake, hdrop, if_pos hidentifier, ← hchars, String.ofList_toList]
  next =>
    rw [String.toList_ofList, Quoted.literal, List.cons_append, List.cons_append, List.append_assoc,
      readName?_quote, List.singleton_append, readQuoted?_encode, String.ofList_toList]

/-- The value of an entry is read back. -/
theorem readValue?_objectValue {value : StyleValue} (hvalid : value.isValid = true) {stop : Char}
    (hstop : Double.isNumberChar stop = false) (rest : List Char) :
    readValue? ((Style.objectValue value).toList ++ stop :: rest) =
      some (value.shown, stop :: rest) := by
  cases value with
  | unset => contradiction
  | number x =>
    -- a number ends in front of the first character that no number has
    have hfinite : x.isFinite = true := hvalid
    have hchars := Double.isNumberChar_of_mem_toText hfinite
    obtain ⟨htake, hdrop⟩ := takeWhile_append_cons rest hchars hstop
    rw [Style.objectValue, readValue?.eq_def]
    split
    next heq =>
      have hne := Double.toText_ne_empty hfinite
      cases htext : x.toText.toList with
      | nil => contradiction
      | cons c cs =>
        rw [htext] at heq hchars
        obtain ⟨rfl, -⟩ := List.cons.inj heq
        exact absurd (hchars '"' List.mem_cons_self) (by decide)
    next =>
      rw [htake, hdrop, if_neg, String.ofList_toList]
      · rfl
      · rw [List.isEmpty_iff]
        exact Double.toText_ne_empty hfinite
  | text s =>
    rw [Style.objectValue, String.toList_ofList, Quoted.literal, List.cons_append, List.cons_append,
      List.append_assoc, readValue?_quote, List.singleton_append, readQuoted?_encode,
      String.ofList_toList]
    rfl

/-- What is written for an entry. -/
def entryText (entry : String × StyleValue) : String :=
  Style.objectName entry.1 ++ ": " ++ Style.objectValue entry.2

/-- The entries of an object literal are those of the values that can be written. -/
theorem objectEntries_eq (s : Style) : s.objectEntries = s.written.map entryText := rfl

/-- An entry is read back. -/
theorem readEntry?_entryText {entry : String × StyleValue} (hvalid : entry.2.isValid = true)
    {stop : Char} (hstop : Double.isNumberChar stop = false) (rest : List Char) :
    readEntry? ((entryText entry).toList ++ stop :: rest) =
      some (Style.shownEntry entry, stop :: rest) := by
  have hsplit : (entryText entry).toList ++ stop :: rest =
      (Style.objectName entry.1).toList ++
        ':' :: ' ' :: ((Style.objectValue entry.2).toList ++ stop :: rest) := by
    simp [entryText]
  rw [hsplit, readEntry?, readName?_objectName]
  show (readValue? _).map _ = _
  rw [readValue?_objectValue hvalid hstop]
  rfl

/-- Entries between commas are read back, if there is room for them. -/
theorem readEntries?_intercalate {entries : List (String × StyleValue)} {room : Nat}
    (hne : entries ≠ []) (hvalid : ∀ entry ∈ entries, entry.2.isValid = true)
    (hroom : entries.length ≤ room) (rest : List Char) :
    readEntries? room ((", ".intercalate (entries.map entryText)).toList ++
        ' ' :: '\x7d' :: rest) = some (entries.map Style.shownEntry, rest) := by
  -- induction on the entries: each takes one of the room, and the last one ends in the brace
  induction entries generalizing room with
  | nil => contradiction
  | cons entry entries ih =>
    rw [List.forall_mem_cons] at hvalid
    rw [List.length_cons] at hroom
    obtain ⟨more, rfl⟩ := Nat.exists_eq_add_of_le' (Nat.le_of_add_left_le hroom)
    cases entries with
    | nil =>
      rw [List.map_singleton, String.intercalate_singleton, readEntries?,
        readEntry?_entryText hvalid.1 (by decide)]
      rfl
    | cons next entries =>
      have hrest := ih (List.cons_ne_nil _ _) hvalid.2 (Nat.le_of_add_le_add_right hroom)
      have hsplit : (", ".intercalate ((entry :: next :: entries).map entryText)).toList ++
            ' ' :: '\x7d' :: rest =
          (entryText entry).toList ++ ',' :: ' ' ::
            ((", ".intercalate ((next :: entries).map entryText)).toList ++
              ' ' :: '\x7d' :: rest) := by
        rw [List.map_cons, List.map_cons, String.intercalate_cons_cons]
        simp
      rw [hsplit, readEntries?, readEntry?_entryText hvalid.1 (by decide)]
      show (readEntries? more _).map _ = _
      rw [hrest]
      rfl

/-- There are no more entries than characters. -/
theorem length_le_length_intercalate (entries : List (String × StyleValue)) :
    entries.length ≤ (", ".intercalate (entries.map entryText)).toList.length := by
  have hpos : ∀ entry, 1 ≤ (entryText entry).toList.length := by
    intro entry
    simp only [entryText, String.toList_append, List.length_append]
    have : ": ".toList.length = 2 := rfl
    omega
  induction entries with
  | nil => exact Nat.zero_le _
  | cons entry entries ih =>
    have hentry := hpos entry
    cases entries with
    | nil => simpa using hentry
    | cons next entries =>
      rw [List.map_cons, List.map_cons, String.intercalate_cons_cons]
      simp only [String.toList_append, List.length_append, List.length_cons, List.map_cons] at ih ⊢
      omega

/-- **The object literal of a style is read back**, whatever comes after it. -/
theorem read?_objectText (s : Style) (rest : List Char) :
    read? (s.objectText.toList ++ rest) = some (s.shownEntries, rest) := by
  rw [Style.objectText, Style.shownEntries, objectEntries_eq]
  cases hwritten : s.written with
  | nil => rfl
  | cons entry entries =>
    have hvalid : ∀ other ∈ entry :: entries, other.2.isValid = true := by
      intro other hother
      rw [← hwritten, Style.written, List.mem_filter] at hother
      exact hother.2
    have hsplit : ("\x7b " ++ ", ".intercalate ((entry :: entries).map entryText) ++ " \x7d").toList
          ++ rest =
        '\x7b' :: ' ' :: ((", ".intercalate ((entry :: entries).map entryText)).toList ++
          ' ' :: '\x7d' :: rest) := by
      simp
    have hroom := length_le_length_intercalate (entry :: entries)
    show read? (("\x7b " ++ ", ".intercalate ((entry :: entries).map entryText) ++ " \x7d").toList
      ++ rest) = _
    rw [hsplit]
    show readEntries? _ _ = _
    rw [readEntries?_intercalate (List.cons_ne_nil _ _) hvalid]
    rw [List.length_append]
    exact Nat.le_trans hroom (Nat.le_add_right _ _)

/-- Object literals are told apart by what they show, whatever comes after them. -/
theorem objectText_append_inj {s t : Style} {rest rest' : List Char}
    (h : s.objectText.toList ++ rest = t.objectText.toList ++ rest') :
    s.shownEntries = t.shownEntries ∧ rest = rest' := by
  have hread := congrArg read? h
  rw [read?_objectText, read?_objectText] at hread
  exact Prod.mk.inj (Option.some.inj hread)

end ObjectLiteral

end PageTree
