import PageTree.Double

/-! # Data values

The values of the JSON data notation, with the order and the repetitions of an object's entries
kept. Numbers are either naturals that fit a 64-bit word, written as integers, or doubles. What
follows the notation but stands for nothing is a value too, since a reader may pass over it.
**`Json.depth`** counts the arrays and objects around the innermost value, **`Json.isReadable`**
says that everything in a value stands for something, and **`Json.readable?`** asks for both. -/

namespace PageTree

/-- A value without parts. -/
inductive Scalar where
  /-- The absent value. -/
  | null
  /-- A truth value. -/
  | bool (value : Bool)
  /-- An integer literal without a sign, below `2⁶⁴`. -/
  | natural (value : UInt64)
  /-- Any other number. -/
  | real (value : Double)
  /-- A text. -/
  | text (value : String)
  /-- What stands for nothing: a number beyond the doubles, a text with half of a surrogate pair, or
  an object with such a text as a name. -/
  | unreadable
  deriving DecidableEq, Repr

/-- A value of the data notation. -/
inductive Json where
  /-- A value without parts. -/
  | scalar (value : Scalar)
  /-- A sequence of values. -/
  | array (items : List Json)
  /-- Named values in the order written; a name may come more than once. -/
  | object (entries : List (String × Json))

namespace Json

/-- The absent value. -/
@[match_pattern] abbrev null : Json := .scalar .null

/-- A truth value. -/
@[match_pattern] abbrev bool (value : Bool) : Json := .scalar (.bool value)

/-- An integer literal. -/
@[match_pattern] abbrev natural (value : UInt64) : Json := .scalar (.natural value)

/-- A number that is not an integer literal. -/
@[match_pattern] abbrev real (value : Double) : Json := .scalar (.real value)

/-- A text. -/
@[match_pattern] abbrev text (value : String) : Json := .scalar (.text value)

/-- What stands for nothing. -/
@[match_pattern] abbrev unreadable : Json := .scalar .unreadable

instance : Inhabited Json := ⟨.null⟩

mutual

/-- How many arrays and objects are around the innermost part of a value, the value itself
included. -/
def depth : Json → Nat
  | .scalar _ => 0
  | .array items => depthOfItems items + 1
  | .object entries => depthOfEntries entries + 1

/-- The depth of the deepest item. -/
def depthOfItems : List Json → Nat
  | [] => 0
  | item :: items => max item.depth (depthOfItems items)

/-- The depth of the deepest entry. -/
def depthOfEntries : List (String × Json) → Nat
  | [] => 0
  | (_, value) :: entries => max value.depth (depthOfEntries entries)

end

/-- An array is one deeper than its deepest item. -/
@[simp] theorem depth_array (items : List Json) :
    (Json.array items).depth = depthOfItems items + 1 :=
  rfl

/-- An object is one deeper than its deepest value. -/
@[simp] theorem depth_object (entries : List (String × Json)) :
    (Json.object entries).depth = depthOfEntries entries + 1 := rfl

/-- The deepest of several items is the first or one behind it. -/
@[simp] theorem depthOfItems_cons (item : Json) (items : List Json) :
    depthOfItems (item :: items) = max item.depth (depthOfItems items) := rfl

/-- The deepest of several values is the first or one behind it. -/
@[simp] theorem depthOfEntries_cons (name : String) (value : Json)
    (entries : List (String × Json)) :
    depthOfEntries ((name, value) :: entries) = max value.depth (depthOfEntries entries) := rfl

mutual

/-- Whether everything in a value stands for something. -/
def isReadable : Json → Bool
  | .scalar s => s != .unreadable
  | .array items => areItemsReadable items
  | .object entries => areEntriesReadable entries

/-- Whether everything in items stands for something. -/
def areItemsReadable : List Json → Bool
  | [] => true
  | item :: items => item.isReadable && areItemsReadable items

/-- Whether everything in entries stands for something. -/
def areEntriesReadable : List (String × Json) → Bool
  | [] => true
  | (_, value) :: entries => value.isReadable && areEntriesReadable entries

end

/-- The nesting limit: how many arrays and objects may be around one another in what is read. -/
def depthLimit : Nat := 127

/-- A value, if everything in it stands for something and it is no deeper than the room there is. -/
def readable? (room : Nat) (json : Json) : Option Json :=
  if json.isReadable && json.depth ≤ room then some json else none

end Json

end PageTree
