import PageTree.Key
import PageTree.Style

/-! # Nodes

A page is a forest of nodes: containers, self-closing elements and texts, each with a key. Functions
on nodes come in pairs, one for a node and one for a forest, and a lemma says what the second is in
terms of the first. **`Node.keys`** lists the keys of a subtree, a node before its children and the
children in order; **`Node.fault?`** is the first reason, in that order, why a subtree cannot be
written as markup; **`Node.agrees`** is equality up to the order of styles and the sign of zeros. -/

namespace PageTree

/-- The kinds of nodes. -/
inductive NodeKind where
  /-- An element that may own children. -/
  | container
  /-- A self-closing element. -/
  | single
  /-- A literal text. -/
  | text
  deriving DecidableEq, Repr

/-- A free attribute. -/
structure Attribute where
  /-- Its name. -/
  name : String
  /-- Its value. -/
  value : String
  deriving DecidableEq, Repr

/-- A position on the canvas, in pixels. -/
structure Position where
  /-- The distance from the left. -/
  x : Double
  /-- The distance from the top. -/
  y : Double
  deriving DecidableEq, Repr

/-- The properties of an element. -/
structure Props where
  /-- The identifier. -/
  id : Option String := none
  /-- The explicit class. -/
  className : Option String := none
  /-- The style. -/
  style : Style := Style.empty
  /-- The free attributes, in the order in which they are written. -/
  attributes : List Attribute := []
  /-- The resolved position. -/
  position : Option Position := none
  deriving DecidableEq, Repr

/-- A node of a page. Nothing here forbids an element without a tag or a text with children; see
`Node.fault?`. -/
structure Node where
  /-- The kind of node. -/
  kind : NodeKind
  /-- The key. -/
  key : Key
  /-- The tag of an element. -/
  tag : String := ""
  /-- The name shown instead of the tag in lists of layers. -/
  displayName : Option String := none
  /-- The children, in order. -/
  children : List Node := []
  /-- The properties, if there are any. -/
  props : Option Props := none
  /-- The content of a text. -/
  content : Option String := none

/-- A forest: nodes side by side. -/
abbrev Forest := List Node

namespace Node

instance : Inhabited Node := ⟨{ kind := .container, key := default }⟩

/-- A property of nodes holds of all of them if it passes from the children to the node. -/
theorem induction {motive : Node → Prop}
    (step : ∀ node : Node, (∀ child ∈ node.children, motive child) → motive node) (node : Node) :
    motive node :=
  Node.rec (motive_1 := motive) (motive_2 := fun forest => ∀ child ∈ forest, motive child)
    (fun kind key tag displayName children props content ih =>
      step ⟨kind, key, tag, displayName, children, props, content⟩ ih)
    (by simp) (fun _ _ head tail => List.forall_mem_cons.2 ⟨head, tail⟩) node

/-! ## Making nodes -/

/-- A container without children. -/
def container (tag : String) (key : Key) : Node :=
  { kind := .container, key := key, tag := tag, props := some {} }

/-- A self-closing element. -/
def single (tag : String) (key : Key) : Node :=
  { kind := .single, key := key, tag := tag, props := some {} }

/-- A literal text. -/
def text (content : String) (key : Key) : Node :=
  { kind := .text, key := key, content := some content }

/-- Changes the properties of an element, which has empty ones if it had none; a text has no
properties to change. -/
def mapProps (change : Props → Props) (node : Node) : Node :=
  match node.kind with
  | .text => node
  | _ => { node with props := some (change (node.props.getD {})) }

/-- The same element with an identifier. -/
def withId (id : String) : Node → Node := mapProps fun p => { p with id := some id }

/-- The same element with an explicit class. -/
def withClass (className : String) : Node → Node :=
  mapProps fun p => { p with className := some className }

/-- The same element with a style value set. -/
def withStyle (name : String) (value : StyleValue) : Node → Node :=
  mapProps fun p => { p with style := p.style.insert name value }

/-- The same element with one more attribute. -/
def withAttribute (name value : String) : Node → Node :=
  mapProps fun p => { p with attributes := p.attributes ++ [⟨name, value⟩] }

/-- The same element at a position. -/
def withPosition (x y : Double) : Node → Node :=
  mapProps fun p => { p with position := some ⟨x, y⟩ }

/-- The same node with a display name. -/
def withDisplayName (displayName : String) (node : Node) : Node :=
  { node with displayName := some displayName }

/-- The same node with more children at the end. -/
def withChildren (children : Forest) (node : Node) : Node :=
  { node with children := node.children ++ children }

end Node

/-! ## Keys and size -/

mutual

/-- The keys of a subtree, the node before its children. -/
def Node.keys : Node → List Key
  | { key, children, .. } => key :: Forest.keys children

/-- The keys of a forest. -/
def Forest.keys : Forest → List Key
  | [] => []
  | node :: forest => node.keys ++ Forest.keys forest

end

mutual

/-- The number of nodes in a subtree. -/
def Node.count : Node → Nat
  | { children, .. } => 1 + Forest.count children

/-- The number of nodes in a forest. -/
def Forest.count : Forest → Nat
  | [] => 0
  | node :: forest => node.count + Forest.count forest

end

/-- The keys of a subtree are that of its root and, behind it, those of its children. -/
@[simp] theorem Node.keys_eq (node : Node) : node.keys = node.key :: Forest.keys node.children := by
  cases node; rfl

/-- A subtree has its root and the nodes of its children. -/
@[simp] theorem Node.count_eq (node : Node) : node.count = 1 + Forest.count node.children := by
  cases node; rfl

/-- The keys of a forest are those of its trees in order. -/
theorem Forest.keys_eq (forest : Forest) : Forest.keys forest = forest.flatMap Node.keys := by
  induction forest with
  | nil => rfl
  | cons node forest ih => rw [Forest.keys, ih, List.flatMap_cons]

/-! ## Faults -/

/-- Why a node cannot be written as markup. -/
inductive NodeFault where
  /-- An element has a blank tag. -/
  | missingTag (key : Key)
  /-- A text owns children. -/
  | textWithChildren (key : Key)
  deriving DecidableEq, Repr

/-- The message of a fault. -/
def NodeFault.message : NodeFault → String
  | .missingTag key => "Element node " ++ key.toText ++ " has no tag"
  | .textWithChildren key => "Text node " ++ key.toText ++ " cannot own children"

mutual

/-- The first fault of a subtree. What is below a self-closing element is never written, so it is
not looked at. -/
def Node.fault? : Node → Option NodeFault
  | { kind, key, tag, children, .. } =>
    match kind with
    | .text => if children.isEmpty then none else some (.textWithChildren key)
    | .single => if Text.isBlankText tag then some (.missingTag key) else none
    | .container => if Text.isBlankText tag then some (.missingTag key) else Forest.fault? children

/-- The first fault of a forest. -/
def Forest.fault? : Forest → Option NodeFault
  | [] => none
  | node :: forest => node.fault?.or (Forest.fault? forest)

end

/-! ## Agreement -/

/-- Equality of positions with numeric equality of the coordinates. -/
def Position.agrees (p q : Position) : Bool := p.x.agrees q.x && p.y.agrees q.y

/-- Agreement of things that may be absent. -/
def agreesOption {α : Type} (agrees : α → α → Bool) : Option α → Option α → Bool
  | none, none => true
  | some a, some b => agrees a b
  | _, _ => false

/-- Equality of properties with agreeing styles and positions. -/
def Props.agrees (p q : Props) : Bool :=
  p.id == q.id && p.className == q.className && p.style.agrees q.style &&
    p.attributes == q.attributes && agreesOption Position.agrees p.position q.position

mutual

/-- Equality of nodes with agreeing properties. -/
def Node.agrees : Node → Node → Bool
  | { kind, key, tag, displayName, children, props, content }, other =>
    kind == other.kind && key == other.key && tag == other.tag &&
      displayName == other.displayName && Forest.agrees children other.children &&
      agreesOption Props.agrees props other.props && content == other.content

/-- Agreement of forests, node by node. -/
def Forest.agrees : Forest → Forest → Bool
  | [], [] => true
  | node :: forest, other :: others => node.agrees other && Forest.agrees forest others
  | _, _ => false

end

end PageTree
