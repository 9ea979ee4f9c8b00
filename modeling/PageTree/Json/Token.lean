import PageTree.Json.Number
import PageTree.Json.Quoted

/-! # Tokens of the data notation

The punctuation marks and the values without parts. **`Token.scan?`** splits a text into tokens, one
character at a time; **`Token.chars`** writes a token. White space is the space, the tab and the two
line ends, and may stand between any two tokens. -/

namespace PageTree

/-- A token of the data notation. -/
inductive Token where
  /-- The mark `[`. -/
  | openArray
  /-- The mark `]`. -/
  | closeArray
  /-- The opening brace. -/
  | openObject
  /-- The closing brace. -/
  | closeObject
  /-- The mark `,`. -/
  | comma
  /-- The mark `:`. -/
  | colon
  /-- A value without parts. -/
  | scalar (value : Scalar)
  /-- A text literal with half of a surrogate pair. -/
  | brokenText
  deriving DecidableEq, Repr

namespace Token

/-- Whether a character may stand between tokens. -/
def isSpace (c : Char) : Bool := c == ' ' || c == '\t' || c == '\n' || c == '\r'

/-- The token of a punctuation mark. -/
def punctuation? : Char → Option Token
  | '[' => some .openArray
  | ']' => some .closeArray
  | '\x7b' => some .openObject
  | '\x7d' => some .closeObject
  | ',' => some .comma
  | ':' => some .colon
  | _ => none

/-- Whether a character can stand in a literal without quotes: anything but space, punctuation and
the quote, so that a malformed literal is one word too. -/
def isWordChar (c : Char) : Bool := !isSpace c && (punctuation? c).isNone && c != '"'

/-- Reads a literal without quotes: a keyword or a number. -/
def ofWord? (cs : List Char) : Option Token :=
  if cs == "null".toList then some (.scalar .null)
  else if cs == "true".toList then some (.scalar (.bool true))
  else if cs == "false".toList then some (.scalar (.bool false))
  else (Scalar.numberOf? cs).map .scalar

/-- Reads the characters between the quotes of a text literal. -/
def ofQuoted? (cs : List Char) : Option Token :=
  match Quoted.decode cs with
  | some text => some (.scalar (.text (String.ofList text)))
  | none => if Quoted.isWellFormed cs then some .brokenText else none

/-! ## Scanning -/

/-- What the scanner is in the middle of; characters are kept with the last one first. -/
inductive Scanner where
  /-- Between tokens. -/
  | between
  /-- In a literal without quotes. -/
  | word (chars : List Char)
  /-- In a text literal. -/
  | quoted (chars : List Char)
  /-- In a text literal, right after a reverse solidus. -/
  | escape (chars : List Char)

namespace Scanner

/-- Starts a token, or passes over a space. -/
def start (c : Char) : List Token × Scanner :=
  if isSpace c then ([], .between)
  else match punctuation? c with
    | some token => ([token], .between)
    | none => if c == '"' then ([], .quoted []) else ([], .word [c])

/-- Takes one character; gives the tokens that it completes. -/
def step? : Scanner → Char → Option (List Token × Scanner)
  | .between, c => some (start c)
  | .word chars, c =>
    if isWordChar c then some ([], .word (c :: chars))
    else (ofWord? chars.reverse).map fun token =>
      let (tokens, scanner) := start c
      (token :: tokens, scanner)
  | .quoted chars, c =>
    if c == '"' then (ofQuoted? chars.reverse).map fun token => ([token], .between)
    else if c == '\\' then some ([], .escape (c :: chars))
    else some ([], .quoted (c :: chars))
  | .escape chars, c => some ([], .quoted (c :: chars))

/-- Ends the text; a text literal must be closed by then. -/
def finish? : Scanner → Option (List Token)
  | .between => some []
  | .word chars => (ofWord? chars.reverse).map ([·])
  | _ => none

/-- Takes the characters of a text in turn; `done` holds the tokens so far with the last one
first. -/
def run? (done : List Token) (scanner : Scanner) : List Char → Option (List Token)
  | [] => scanner.finish?.map (done.reverse ++ ·)
  | c :: cs =>
    match scanner.step? c with
    | none => none
    | some (tokens, next) => run? (tokens.reverse ++ done) next cs

/-- The tokens so far stand in front of those still to come. -/
theorem run?_eq_map (done : List Token) (scanner : Scanner) (cs : List Char) :
    scanner.run? done cs = (scanner.run? [] cs).map (done.reverse ++ ·) := by
  induction cs generalizing done scanner with
  | nil => simp [run?]
  | cons c cs ih =>
    simp only [run?]
    cases scanner.step? c with
    | none => rfl
    | some r =>
      obtain ⟨tokens, next⟩ := r
      simp only [List.append_nil]
      rw [ih (tokens.reverse ++ done), ih tokens.reverse]
      simp [Option.map_map, Function.comp_def]

end Scanner

/-- Splits a text into its tokens. -/
def scan? (cs : List Char) : Option (List Token) := Scanner.between.run? [] cs

/-! ## Writing -/

/-- What is written for a value without parts. What stands for nothing is written as a number beyond
the doubles. -/
def scalarChars : Scalar → List Char
  | .null => "null".toList
  | .bool true => "true".toList
  | .bool false => "false".toList
  | .natural n => Digits.write n.toNat
  | .real x => (Scalar.realText x).toList
  | .text s => Quoted.literal s.toList
  | .unreadable => "1e999".toList

/-- What is written for a token. -/
def chars : Token → List Char
  | .openArray => ['[']
  | .closeArray => [']']
  | .openObject => ['\x7b']
  | .closeObject => ['\x7d']
  | .comma => [',']
  | .colon => [':']
  | .scalar s => scalarChars s
  | .brokenText => "\"\\ud800\"".toList

end Token

end PageTree
