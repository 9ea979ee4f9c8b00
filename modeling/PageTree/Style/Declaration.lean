import PageTree.Double.Shortest
import PageTree.Json.Quoted
import PageTree.Style
import PageTree.Style.PropertyName

/-! # Declarations

What a style becomes in markup. **`StyleValue.cssText?`** is the text of a value,
**`Style.declarations`** the pairs of hyphenated property and value, **`Style.inlineText`** their
text in an attribute, and **`Style.objectText`** the object literal of the other attribute dialect.
Values that cannot be written are passed over in all of them. -/

namespace PageTree

/-- The properties whose bare numbers have no unit. -/
def unitlessProperties : List String := ["opacity", "zoom", "font-weight", "scale"]

namespace StyleValue

/-- The finite number that a value is or, with blanks around it, spells. -/
def number? : StyleValue → Option Double
  | .number x => if x.isFinite then some x else none
  | .text s => (Double.ofText? (Text.trim s)).filter Double.isFinite
  | .unset => none

/-- The text of a number in a declaration: in pixels, unless the property has no unit. -/
def numberText (property : String) (x : Double) : String :=
  if unitlessProperties.contains property then x.toText else x.toText ++ "px"

/-- The text of a value in the declaration of a hyphenated property, if it can be written: a number
gets its unit, and a text that spells none is trimmed. -/
def cssText? (property : String) (value : StyleValue) : Option String :=
  if value.isValid then
    match value.number?, value with
    | some x, _ => some (numberText property x)
    | none, .text s => some (Text.trim s)
    | none, _ => none
  else none

end StyleValue

/-- A declaration: a hyphenated property and the text of its value. -/
abbrev Declaration := String × String

/-- The text of a declaration. -/
def declarationText (d : Declaration) : String := d.1 ++ ": " ++ d.2 ++ ";"

namespace Style

/-- The declaration of an entry, if its value can be written. -/
def declaration? (entry : String × StyleValue) : Option Declaration :=
  let property := PropertyName.hyphenated entry.1
  (entry.2.cssText? property).map fun value => (property, value)

/-- The declarations of a style, in its order. -/
def declarations (s : Style) : List Declaration := s.entries.filterMap declaration?

/-- Whether a style has a value that can be written. -/
def hasValid (s : Style) : Bool := s.entries.any fun entry => entry.2.isValid

/-- The declarations of a style on one line. -/
def inlineText (s : Style) : String := " ".intercalate (s.declarations.map declarationText)

/-- Sets the property that moves an element to a position. -/
def withTranslate (s : Style) (x y : Double) : Style :=
  s.insert "translate" (.text (x.toText ++ "px " ++ y.toText ++ "px"))

/-! ## Object literals -/

/-- Whether a character can start an identifier. -/
def isIdentifierStart (c : Char) : Bool := c.isAlpha || c == '_' || c == '$'

/-- Whether a text is an identifier, so that it needs no quotes as the name of an entry. -/
def isIdentifier : List Char → Bool
  | [] => false
  | c :: cs => isIdentifierStart c && cs.all fun c => isIdentifierStart c || c.isDigit

/-- The name of an entry of an object literal. -/
def objectName (name : String) : String :=
  let camel := PropertyName.camelCase name
  if isIdentifier camel.toList then camel else String.ofList (Quoted.literal camel.toList)

/-- The value of an entry of an object literal: the number, or the trimmed text between quotes. -/
def objectValue : StyleValue → String
  | .unset => ""
  | .number x => x.toText
  | .text s => String.ofList (Quoted.literal (Text.trim s).toList)

/-- The entries of the object literal of a style. -/
def objectEntries (s : Style) : List String :=
  (s.entries.filter fun entry => entry.2.isValid).map fun entry =>
    objectName entry.1 ++ ": " ++ objectValue entry.2

/-- The object literal of a style. -/
def objectText (s : Style) : String :=
  let entries := s.objectEntries
  if entries.isEmpty then "\x7b\x7d" else "\x7b " ++ ", ".intercalate entries ++ " \x7d"

end Style

end PageTree
