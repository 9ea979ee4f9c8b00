import PageTree.Node.Data

/-! # Layers

A layer tree is what the layer panel of the editor shows: titles, and whether a layer is shown as a
leaf. **`Layer.toNode`** is the node of a page that a layer stands for, and **`Layer.shape`** is all
of a layer that matters for its children: titles and structure without keys. What is below a leaf
stands for nothing and belongs to no shape. -/

namespace PageTree

/-- A layer of the layer panel. -/
structure Layer where
  /-- The title, which is the tag of the element. -/
  title : String
  /-- The key. -/
  key : Key
  /-- Whether it is shown as a leaf. -/
  leaf : Bool := false
  /-- The layers below it. -/
  children : List Layer := []

/-- Titles and structure of a layer, without keys. -/
inductive Shape where
  /-- The shape of a leaf. -/
  | leaf (title : String)
  /-- The shape of a layer that is no leaf. -/
  | branch (title : String) (children : List Shape)

namespace Layer

/-- The elements that never have content. -/
def voidElements : List String :=
  ["img", "input", "br", "hr", "meta", "link", "area", "base", "col", "embed", "param", "source",
    "track", "wbr"]

/-- The kind of node that a layer becomes: only a leaf can be self-closing. -/
def kind (title : String) (leaf : Bool) : NodeKind :=
  if leaf && voidElements.contains title then .single else .container

/-- The element of a layer, without children. -/
def element (title : String) (key : Key) (leaf : Bool) : Node :=
  { kind := kind title leaf, key := key, tag := title, props := some {} }

mutual

/-- The node that a layer stands for. -/
def toNode : Layer → Node
  | { title, key, leaf, children } =>
    { element title key leaf with children := if leaf then [] else toForest children }

/-- The nodes that layers stand for. -/
def toForest : List Layer → Forest
  | [] => []
  | layer :: layers => layer.toNode :: toForest layers

end

mutual

/-- The shape of a layer. -/
def shape : Layer → Shape
  | { title, leaf, children, .. } => if leaf then .leaf title else .branch title (shapes children)

/-- The shapes of layers. -/
def shapes : List Layer → List Shape
  | [] => []
  | layer :: layers => layer.shape :: shapes layers

end

/-- The shapes of layers are those of the single layers in order. -/
theorem shapes_eq (layers : List Layer) : shapes layers = layers.map shape := by
  induction layers with
  | nil => rfl
  | cons layer layers ih => rw [shapes, ih, List.map_cons]

/-! ## Data notation -/

/-- The fields of a layer, in the order in which they are written. -/
def fields : List RecordField :=
  [.required "title", .required "key", ⟨["isLeaf", "leaf"], true⟩, .optional "children"]

mutual

/-- All fields of a layer are written. -/
def toJson : Layer → Json
  | { title, key, leaf, children } =>
    .object [("title", .text title), ("key", key.toJson), ("isLeaf", .bool leaf),
      ("children", .array (listToJson children))]

/-- The data values of layers. -/
def listToJson : List Layer → List Json
  | [] => []
  | layer :: layers => layer.toJson :: listToJson layers

end

/-- Reads the fields of a layer, its children as told. -/
def ofFields? (readChildren : Json → Option (List Layer)) (json : Json) : Option Layer := do
  match ← json.fields? fields with
  | [title, key, leaf, children] =>
    some {
      title := ← Json.required Json.text? title
      key := ← Json.required Key.ofJson? key
      leaf := ← Json.withDefault false Json.bool? leaf
      children := ← Json.withDefault [] readChildren children }
  | _ => none

/-- Reads a layer. Each generation takes room twice, for the layer and for the list it is in. -/
def read? : Nat → Json → Option Layer
  | 0, _ => none
  | 1, json => ofFields? (fun _ => none) json
  | room + 2, json => ofFields? (fun children => children.items?.bind (·.mapM (read? room))) json

/-- Reads a layer with all the room there is. -/
def ofJson? (json : Json) : Option Layer := read? Json.depthLimit json

/-- Reads layers side by side with all the room there is. -/
def listOfJson? (json : Json) : Option (List Layer) := Json.list? read? Json.depthLimit json

end Layer

end PageTree
