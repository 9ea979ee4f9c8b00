import PageTree.Json.Token

/-! # Writing data values

Two layouts of a value. **`Json.compact`** writes the tokens of **`Json.tokens`** without any space;
**`Json.indented`** puts every item and entry on a line of its own, two spaces further in than its
array or object, and writes an empty array or object on one line. -/

namespace PageTree.Json

mutual

/-- The tokens that spell a value. -/
def tokens : Json → List Token
  | .scalar s => [.scalar s]
  | .array items => .openArray :: itemTokens items ++ [.closeArray]
  | .object entries => .openObject :: entryTokens entries ++ [.closeObject]

/-- The tokens of items, separated by commas. -/
def itemTokens : List Json → List Token
  | [] => []
  | item :: items => item.tokens ++ moreItemTokens items

/-- The tokens of the items after the first, each behind its comma. -/
def moreItemTokens : List Json → List Token
  | [] => []
  | item :: items => .comma :: item.tokens ++ moreItemTokens items

/-- The tokens of entries, separated by commas. -/
def entryTokens : List (String × Json) → List Token
  | [] => []
  | (name, value) :: entries =>
    .scalar (.text name) :: .colon :: value.tokens ++ moreEntryTokens entries

/-- The tokens of the entries after the first, each behind its comma. -/
def moreEntryTokens : List (String × Json) → List Token
  | [] => []
  | (name, value) :: entries =>
    .comma :: .scalar (.text name) :: .colon :: value.tokens ++ moreEntryTokens entries

end

/-- A value on one line, without spaces. -/
def compact (json : Json) : String := String.ofList (json.tokens.flatMap Token.chars)

/-- A line end and the indentation of a nesting level. -/
def lineStart (level : Nat) : List Char := '\n' :: List.replicate (2 * level) ' '

mutual

/-- The characters of a value laid out over lines, at a nesting level. -/
def indentedChars (level : Nat) : Json → List Char
  | .scalar s => Token.scalarChars s
  | .array [] => ['[', ']']
  | .array (item :: items) =>
    '[' :: lineStart (level + 1) ++ indentedChars (level + 1) item ++
      moreItemChars (level + 1) items ++ lineStart level ++ [']']
  | .object [] => ['\x7b', '\x7d']
  | .object ((name, value) :: entries) =>
    '\x7b' :: lineStart (level + 1) ++ Quoted.literal name.toList ++ [':', ' '] ++
      indentedChars (level + 1) value ++ moreEntryChars (level + 1) entries ++ lineStart level ++
      ['\x7d']

/-- The items after the first, each behind its comma and on its own line. -/
def moreItemChars (level : Nat) : List Json → List Char
  | [] => []
  | item :: items => ',' :: lineStart level ++ indentedChars level item ++ moreItemChars level items

/-- The entries after the first, each behind its comma and on its own line. -/
def moreEntryChars (level : Nat) : List (String × Json) → List Char
  | [] => []
  | (name, value) :: entries =>
    ',' :: lineStart level ++ Quoted.literal name.toList ++ [':', ' '] ++
      indentedChars level value ++ moreEntryChars level entries

end

/-- A value laid out over lines. -/
def indented (json : Json) : String := String.ofList (indentedChars 0 json)

end PageTree.Json
