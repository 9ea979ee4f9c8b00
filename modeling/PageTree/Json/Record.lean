import PageTree.Json

/-! # Records in data values

A record is written as an object of named fields or as an array of the same fields in a fixed order.
**`Json.fields?`** gives the value written for each field of a shape. In an object a field may come
at most once, under any of its names, and entries under other names are passed over; an array may be
cut off before fields that are allowed to be missing there, and holds nothing more. The other
readers here turn the value of a field into what it stands for.

A reader of something with parts takes the *room* there is: how many arrays and objects may be open
around one another in what it reads, itself included. What is passed over takes no room. -/

namespace PageTree

/-- A field of a record. -/
structure RecordField where
  /-- The names under which an object may hold it. -/
  names : List String
  /-- Whether an array may be cut off before it. -/
  omissible : Bool
  deriving DecidableEq, Repr

namespace RecordField

/-- A field that an array always holds. -/
def required (name : String) : RecordField := ⟨[name], false⟩

/-- A field that may be left off at the end of an array. -/
def optional (name : String) : RecordField := ⟨[name], true⟩

end RecordField

namespace Json

/-- The value of a field among the entries of an object: `none` when the field is repeated. -/
def namedField? (entries : List (String × Json)) (field : RecordField) : Option (Option Json) :=
  match entries.filter fun entry => field.names.contains entry.1 with
  | [] => some none
  | [entry] => some (some entry.2)
  | _ => none

/-- The values of the fields in an array. -/
def positionalFields? : List RecordField → List Json → Option (List (Option Json))
  | [], [] => some []
  | [], _ :: _ => none
  | field :: shape, [] =>
    if field.omissible then (positionalFields? shape []).map (none :: ·) else none
  | _ :: shape, item :: items => (positionalFields? shape items).map (some item :: ·)

/-- The values written for the fields of a record, in the order of its shape. -/
def fields? (shape : List RecordField) : Json → Option (List (Option Json))
  | .object entries => shape.mapM (namedField? entries)
  | .array items => positionalFields? shape items
  | .scalar _ => none

/-! ## Values of fields -/

/-- Reads a field that must be there. -/
def required {α : Type} (read : Json → Option α) (field : Option Json) : Option α := field.bind read

/-- Reads a field that stands for `default` when it is not there. -/
def withDefault {α : Type} (default : α) (read : Json → Option α) : Option Json → Option α
  | none => some default
  | some json => read json

/-- Reads a field that is absent when it is not there or `null`. -/
def nullable {α : Type} (read : Json → Option α) : Option Json → Option (Option α)
  | none => some none
  | some .null => some none
  | some json => (read json).map some

/-- Reads a text. -/
def text? : Json → Option String
  | .text s => some s
  | _ => none

/-- Reads a truth value. -/
def bool? : Json → Option Bool
  | .bool b => some b
  | _ => none

/-- Reads a natural that fits a word. -/
def natural? : Json → Option UInt64
  | .natural n => some n
  | _ => none

/-- Reads a number of either kind as a double. -/
def double? : Json → Option Double
  | .natural n => some (Double.ofNat n.toNat)
  | .real x => some x
  | _ => none

/-- The items of an array. -/
def items? : Json → Option (List Json)
  | .array items => some items
  | _ => none

/-- Reads an array, item by item. -/
def list? {α : Type} (read : Nat → Json → Option α) : Nat → Json → Option (List α)
  | 0, _ => none
  | room + 1, json => json.items?.bind (·.mapM (read room))

/-- What stands under a word that is written as the name of an object's only entry. -/
inductive WordMark where
  /-- Nothing but `null`. -/
  | null
  /-- `null`, or an object without entries. -/
  | nullOrEmpty
  deriving DecidableEq, Repr

/-- Whether a value can stand under a word. -/
def WordMark.allows : WordMark → Json → Bool
  | _, .null => true
  | .nullOrEmpty, .object [] => true
  | _, _ => false

/-- Reads one of a fixed set of words: the text itself, or an object with a mark under it. -/
def word? {α : Type} (words : List (String × α)) (mark : WordMark) : Nat → Json → Option α
  | _, .text s => words.lookup s
  | _ + 1, .object [(s, json)] => if mark.allows json then words.lookup s else none
  | _, _ => none

end Json

end PageTree
