import PageTree.Json.Token

/-! # Reading data values

**`Json.ofTokens?`** builds the value that a list of tokens spells, by a machine with a stack of the
arrays and objects still open, and **`Json.parse?`** reads a text: exactly one value, with spaces
around its tokens and nothing after it. Nothing is said here about nesting, or about what stands for
nothing; see `Json.readable?`. -/

namespace PageTree.Json

/-- The entries of an object as they are read; a name that stands for no text is none. -/
abbrev RawEntries := List (Option String × Json)

/-- The object with some entries, given with the last one first; without all of its names it stands
for nothing. -/
def ofRawEntries (entries : RawEntries) : Json :=
  match entries.reverse.mapM fun entry => entry.1.map fun name => (name, entry.2) with
  | some entries => .object entries
  | none => .unreadable

/-- An array or object that is still open, its parts with the last one first. -/
inductive Frame where
  /-- An array with the items read so far. -/
  | array (items : List Json)
  /-- An object with the entries read so far and the name of the next one. -/
  | object (entries : RawEntries) (name : Option String)

/-- What the machine expects next; `stack` holds the open frames, the innermost first. -/
inductive Expecting where
  /-- A value. -/
  | value (stack : List Frame)
  /-- The first item of an array, or its end. -/
  | firstItem (stack : List Frame)
  /-- The first name of an object, or its end. -/
  | firstName (stack : List Frame)
  /-- The name of a further entry. -/
  | name (entries : RawEntries) (stack : List Frame)
  /-- The colon after a name. -/
  | colon (entries : RawEntries) (name : Option String) (stack : List Frame)
  /-- What follows a complete value: a comma, the end of the innermost frame, or nothing. -/
  | after (value : Json) (stack : List Frame)

namespace Expecting

/-- Starts a value inside the open frames. -/
def begin? (stack : List Frame) : Token → Option Expecting
  | .scalar s => some (.after (.scalar s) stack)
  | .brokenText => some (.after .unreadable stack)
  | .openArray => some (.firstItem stack)
  | .openObject => some (.firstName stack)
  | _ => none

/-- The name that a token spells, if it is a text literal. -/
def label? : Token → Option (Option String)
  | .scalar (.text label) => some (some label)
  | .brokenText => some none
  | _ => none

/-- Takes one token. -/
def step? : Expecting → Token → Option Expecting
  | .value stack, token => begin? stack token
  | .firstItem stack, .closeArray => some (.after (.array []) stack)
  | .firstItem stack, token => begin? (.array [] :: stack) token
  | .firstName stack, .closeObject => some (.after (.object []) stack)
  | .firstName stack, token => (label? token).map fun label => .colon [] label stack
  | .name entries stack, token => (label? token).map fun label => .colon entries label stack
  | .colon entries label stack, .colon => some (.value (.object entries label :: stack))
  | .after json (.array items :: stack), .comma => some (.value (.array (json :: items) :: stack))
  | .after json (.array items :: stack), .closeArray =>
    some (.after (.array (json :: items).reverse) stack)
  | .after json (.object entries label :: stack), .comma =>
    some (.name ((label, json) :: entries) stack)
  | .after json (.object entries label :: stack), .closeObject =>
    some (.after (ofRawEntries ((label, json) :: entries)) stack)
  | _, _ => none

/-- The value read, if the machine may stop here. -/
def result? : Expecting → Option Json
  | .after json [] => some json
  | _ => none

end Expecting

/-- The value that a list of tokens spells. -/
def ofTokens? (tokens : List Token) : Option Json :=
  (tokens.foldlM Expecting.step? (.value [])).bind Expecting.result?

/-- Reads a text that holds one value. -/
def parse? (text : String) : Option Json := (Token.scan? text.toList).bind ofTokens?

end PageTree.Json
