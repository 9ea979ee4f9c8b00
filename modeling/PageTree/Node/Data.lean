import PageTree.Json.Record
import PageTree.Node

/-! # Nodes in the data notation

How keys, style values, styles, properties and nodes are written as data values and read from them.
Each part has a `toJson` and an `ofJson?`. Absent and empty parts are left out where reading puts
them back, so that reading what was written gives the same node. -/

namespace PageTree

/-! ## Keys -/

/-- A key is written as its number or its name. -/
def Key.toJson : Key → Json
  | .number n => .natural n
  | .name s => .text s

/-- Reads a key: an integer that fits a word, or a text. -/
def Key.ofJson? : Json → Option Key
  | .natural n => some (.number n)
  | .text s => some (.name s)
  | _ => none

/-- A key is found again from its data. -/
@[simp] theorem Key.ofJson?_toJson (key : Key) : Key.ofJson? key.toJson = some key := by
  cases key <;> rfl

/-! ## Styles -/

/-- An unset value is written as `null`. -/
def StyleValue.toJson : StyleValue → Json
  | .unset => .null
  | .number x => .real x
  | .text s => .text s

/-- Reads a style value: `null`, a number of either kind, or a text. -/
def StyleValue.ofJson? : Json → Option StyleValue
  | .null => some .unset
  | .natural n => some (.number (Double.ofNat n.toNat))
  | .real x => some (.number x)
  | .text s => some (.text s)
  | _ => none

/-- A style value is found again from its data. -/
@[simp] theorem StyleValue.ofJson?_toJson (value : StyleValue) :
    StyleValue.ofJson? value.toJson = some value := by
  cases value <;> rfl

/-- A style is written as an object in its order. -/
def Style.toJson (s : Style) : Json :=
  .object (s.entries.map fun entry => (entry.1, entry.2.toJson))

/-- Reads a style; a repeated name keeps its first place and takes its last value. -/
def Style.read? : Nat → Json → Option Style
  | _ + 1, .object entries =>
    (entries.mapM fun entry => (StyleValue.ofJson? entry.2).map fun value => (entry.1, value)).map
      Style.ofList
  | _, _ => none

/-- Reads a style with all the room there is. -/
def Style.ofJson? (json : Json) : Option Style := Style.read? Json.depthLimit json

/-! ## Properties -/

/-- An attribute is written with its name and its value. -/
def Attribute.toJson (a : Attribute) : Json :=
  .object [("name", .text a.name), ("value", .text a.value)]

/-- Reads an attribute. -/
def Attribute.read? : Nat → Json → Option Attribute
  | 0, _ => none
  | _ + 1, json => do
    match ← json.fields? [.required "name", .required "value"] with
    | [name, value] => some ⟨← Json.required Json.text? name, ← Json.required Json.text? value⟩
    | _ => none

/-- A position is written with its coordinates. -/
def Position.toJson (p : Position) : Json := .object [("x", .real p.x), ("y", .real p.y)]

/-- Reads a position. -/
def Position.read? : Nat → Json → Option Position
  | 0, _ => none
  | _ + 1, json => do
    match ← json.fields? [.required "x", .required "y"] with
    | [x, y] => some ⟨← Json.required Json.double? x, ← Json.required Json.double? y⟩
    | _ => none

/-- Reads a position with all the room there is. -/
def Position.ofJson? (json : Json) : Option Position := Position.read? Json.depthLimit json

/-- An entry that is left out when there is nothing to write. -/
def optionalEntry {α : Type} (name : String) (write : α → Json) : Option α → List (String × Json)
  | none => []
  | some value => [(name, write value)]

/-- The fields of properties, in the order in which they are written. -/
def Props.shape : List RecordField :=
  [.optional "id", .optional "className", .optional "style", .optional "attributes",
    .optional "position"]

/-- Properties are written without those that are absent or empty. -/
def Props.toJson (p : Props) : Json :=
  .object (optionalEntry "id" .text p.id ++ optionalEntry "className" .text p.className ++
    (if p.style.isEmpty then [] else [("style", p.style.toJson)]) ++
    (if p.attributes.isEmpty then []
      else [("attributes", .array (p.attributes.map Attribute.toJson))]) ++
    optionalEntry "position" Position.toJson p.position)

/-- Reads properties; every one of them may be missing. -/
def Props.read? : Nat → Json → Option Props
  | 0, _ => none
  | room + 1, json => do
    match ← json.fields? Props.shape with
    | [id, className, style, attributes, position] =>
      some {
        id := ← Json.nullable Json.text? id
        className := ← Json.nullable Json.text? className
        style := ← Json.withDefault .empty (Style.read? room) style
        attributes := ← Json.withDefault [] (Json.list? Attribute.read? room) attributes
        position := ← Json.nullable (Position.read? room) position }
    | _ => none

/-- Reads properties with all the room there is. -/
def Props.ofJson? (json : Json) : Option Props := Props.read? Json.depthLimit json

/-! ## Nodes -/

/-- The words for the kinds of nodes. -/
def NodeKind.words : List (String × NodeKind) :=
  [("CONTAINER", .container), ("SINGLE", .single), ("TEXT", .text)]

/-- The word for a kind of node. -/
def NodeKind.word : NodeKind → String
  | .container => "CONTAINER"
  | .single => "SINGLE"
  | .text => "TEXT"

/-- The fields of a node, in the order in which they are written. -/
def Node.shape : List RecordField :=
  [.required "type", .required "key", .optional "tag", .optional "alias", .optional "children",
    .optional "props", .optional "content"]

mutual

/-- A node is written without what is absent and without an empty list of children; its tag is
always written. -/
def Node.toJson : Node → Json
  | { kind, key, tag, displayName, children, props, content } =>
    .object ([("type", .text kind.word), ("key", key.toJson), ("tag", .text tag)] ++
      optionalEntry "alias" .text displayName ++
      (if children.isEmpty then [] else [("children", .array (Forest.toJson children))]) ++
      optionalEntry "props" Props.toJson props ++ optionalEntry "content" .text content)

/-- The data values of the nodes of a forest. -/
def Forest.toJson : Forest → List Json
  | [] => []
  | node :: forest => node.toJson :: Forest.toJson forest

end

/-- Reads the fields of a node in the room inside of it, its children as told. -/
def Node.ofFields? (mark : Json.WordMark) (room : Nat) (readChildren : Json → Option Forest)
    (json : Json) : Option Node := do
  match ← json.fields? Node.shape with
  | [kind, key, tag, displayName, children, props, content] =>
    some {
      kind := ← Json.required (Json.word? NodeKind.words mark room) kind
      key := ← Json.required Key.ofJson? key
      tag := ← Json.withDefault "" Json.text? tag
      displayName := ← Json.nullable Json.text? displayName
      children := ← Json.withDefault [] readChildren children
      props := ← Json.nullable (Props.read? room) props
      content := ← Json.nullable Json.text? content }
  | _ => none

/-- Reads a node; `mark` is what may stand under the word for its kind. Each generation takes room
twice, for the node and for the list it is in. -/
def Node.read? (mark : Json.WordMark) : Nat → Json → Option Node
  | 0, _ => none
  | 1, json => Node.ofFields? mark 0 (fun _ => none) json
  | room + 2, json =>
    Node.ofFields? mark (room + 1)
      (fun children => children.items?.bind (·.mapM (Node.read? mark room))) json

/-- Reads a node with all the room there is. -/
def Node.ofJson? (json : Json) : Option Node := Node.read? .null Json.depthLimit json

/-- Reads a forest; `mark` is what may stand under the words for the kinds of its nodes. -/
def Forest.read? (mark : Json.WordMark) : Nat → Json → Option Forest := Json.list? (Node.read? mark)

/-- Reads a forest with all the room there is. -/
def Forest.ofJson? (json : Json) : Option Forest := Forest.read? .null Json.depthLimit json

end PageTree
