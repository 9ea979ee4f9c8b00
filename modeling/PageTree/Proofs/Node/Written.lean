import PageTree.Edit.ListEdit
import PageTree.Layer
import PageTree.Proofs.Json.Record
import PageTree.Proofs.Layer.ShapeNumber

/-! # What is written for nodes, edits and layers

The data value of each of them as an object some of whose parts may be left out, and what is in it:
beside texts, integers, truth values and `null` only the numbers of styles and positions
(**`Node.numbers`**). So what holds of those numbers holds in the whole value
(**`Node.every_toJson`**, **`ListEdit.every_toJson`**, **`Layer.every_toJson`**). -/

namespace PageTree

/-! ## Objects -/

/-- An entry that may be missing is a part that may have no value. -/
theorem optionalEntry_eq {α : Type} (name : String) (write : α → Json) (value : Option α) :
    optionalEntry name write value = Json.entriesOf [(name, value.map write)] := by
  cases value <;> rfl

/-- An entry that may be left out is a part that may have no value. -/
theorem Json.ite_entry_eq (name : String) (leaveOut : Bool) (json : Json) :
    (if leaveOut then [] else [(name, json)]) =
      Json.entriesOf [(name, if leaveOut then none else some json)] := by
  cases leaveOut <;> rfl

/-- Properties are written part by part; what is empty has no value. -/
theorem Props.toJson_eq (p : Props) :
    p.toJson = .object (Json.entriesOf [("id", p.id.map .text),
      ("className", p.className.map .text),
      ("style", if p.style.isEmpty then none else some p.style.toJson),
      ("attributes", if p.attributes.isEmpty then none
        else some (.array (p.attributes.map Attribute.toJson))),
      ("position", p.position.map Position.toJson)]) := by
  simp only [Props.toJson, optionalEntry_eq, Json.ite_entry_eq, ← Json.entriesOf_append]
  rfl

/-- A forest is written node by node. -/
theorem Forest.toJson_eq (forest : Forest) : Forest.toJson forest = forest.map Node.toJson := by
  induction forest with
  | nil => rfl
  | cons node forest ih => rw [Forest.toJson, ih, List.map_cons]

/-- A node is written part by part; what it does not have has no value. -/
theorem Node.toJson_eq (node : Node) :
    node.toJson = .object (Json.entriesOf [("type", some (.text node.kind.word)),
      ("key", some node.key.toJson), ("tag", some (.text node.tag)),
      ("alias", node.displayName.map .text),
      ("children", if node.children.isEmpty then none
        else some (.array (node.children.map Node.toJson))),
      ("props", node.props.map Props.toJson), ("content", node.content.map .text)]) := by
  have hrequired : ∀ kind key tag : Json, [("type", kind), ("key", key), ("tag", tag)] =
      Json.entriesOf [("type", some kind), ("key", some key), ("tag", some tag)] :=
    fun _ _ _ => rfl
  rw [← Forest.toJson_eq]
  cases node
  simp only [Node.toJson, optionalEntry_eq, Json.ite_entry_eq, hrequired, ← Json.entriesOf_append]
  rfl

namespace Layer

/-- Layers are written one by one. -/
theorem listToJson_eq (layers : List Layer) : listToJson layers = layers.map toJson := by
  induction layers with
  | nil => rfl
  | cons layer layers ih => rw [listToJson, ih, List.map_cons]

/-- A layer is written part by part. -/
theorem toJson_eq (layer : Layer) :
    layer.toJson = .object (Json.entriesOf [("title", some (.text layer.title)),
      ("key", some layer.key.toJson), ("isLeaf", some (.bool layer.leaf)),
      ("children", some (.array (layer.children.map toJson)))]) := by
  rw [← listToJson_eq]
  cases layer
  rfl

end Layer

namespace ListEdit

/-- The fields of a change in the data notation, behind its word. -/
def parts : ListEdit → List (String × Option Json)
  | .insert index node => [("index", some (.natural index)), ("node", some node.toJson)]
  | .remove key => [("key", some key.toJson)]
  | .replace key node => [("key", some key.toJson), ("node", some node.toJson)]
  | .append nodes => [("nodes", some (.array (nodes.map Node.toJson)))]
  | .clear => []

/-- A change is written part by part, behind its word. -/
theorem toJson_eq (edit : ListEdit) :
    edit.toJson = .object (Json.entriesOf (("op", some (.text edit.word)) :: edit.parts)) := by
  cases edit with
  | append nodes => rw [toJson, Forest.toJson_eq]; rfl
  | _ => rfl

end ListEdit

/-! ## Numbers -/

/-- The number that a style value is. -/
def StyleValue.numbers : StyleValue → List Double
  | .number x => [x]
  | _ => []

/-- The numbers in properties: those of the style and the coordinates of the position. -/
def Props.numbers (p : Props) : List Double :=
  p.style.entries.flatMap (fun entry => entry.2.numbers) ++ p.position.elim [] fun q => [q.x, q.y]

mutual

/-- The numbers in a subtree. -/
def Node.numbers : Node → List Double
  | { children, props, .. } => props.elim [] Props.numbers ++ Forest.numbers children

/-- The numbers in a forest. -/
def Forest.numbers : Forest → List Double
  | [] => []
  | node :: forest => node.numbers ++ Forest.numbers forest

end

/-- The numbers in a subtree are those of its root and of its children. -/
theorem Node.numbers_eq (node : Node) :
    node.numbers = node.props.elim [] Props.numbers ++ Forest.numbers node.children := by
  cases node; rfl

/-- The numbers in a forest are those of its trees in order. -/
theorem Forest.numbers_eq (forest : Forest) :
    Forest.numbers forest = forest.flatMap Node.numbers := by
  induction forest with
  | nil => rfl
  | cons node forest ih => rw [Forest.numbers, ih, List.flatMap_cons]

/-- The numbers in a change are those in the nodes that it brings in. -/
def ListEdit.numbers (edit : ListEdit) : List Double := Forest.numbers edit.added

section Every

/-! What holds of all values without parts, but for numbers and what stands for nothing, holds in
what is written for a node when it holds of the numbers of the node. -/

variable {q : Scalar → Prop} (hq : ∀ s : Scalar, s ≠ .unreadable → (∀ x, s ≠ .real x) → q s)

include hq

/-- It holds in the data of a text. -/
theorem every_text (text : String) : (Json.text text).Every q := .scalar (hq _ nofun nofun)

/-- It holds in the data of a key. -/
theorem Key.every_toJson (key : Key) : key.toJson.Every q := by
  cases key <;> exact .scalar (hq _ nofun nofun)

/-- It holds in the data of a style when it holds of the numbers in the style. -/
theorem Style.every_toJson (s : Style)
    (hnumbers : ∀ entry ∈ s.entries, ∀ x ∈ entry.2.numbers, q (.real x)) : s.toJson.Every q := by
  refine .object (List.forall_mem_map.2 fun entry hentry => ?_)
  have hvalue := hnumbers entry hentry
  cases hkind : entry.2 with
  | number x => exact .scalar (hvalue x (by rw [hkind]; exact List.mem_cons_self))
  | _ => exact .scalar (hq _ nofun nofun)

/-- It holds in the data of a free attribute. -/
theorem Attribute.every_toJson (a : Attribute) : a.toJson.Every q :=
  .object (List.forall_mem_cons.2 ⟨every_text hq _, List.forall_mem_cons.2
    ⟨every_text hq _, nofun⟩⟩)

/-- It holds in the data of properties when it holds of the numbers in them. -/
theorem Props.every_toJson (p : Props) (hnumbers : ∀ x ∈ p.numbers, q (.real x)) :
    p.toJson.Every q := by
  simp only [numbers, List.forall_mem_append, List.forall_mem_flatMap] at hnumbers
  obtain ⟨hstyle, hposition⟩ := hnumbers
  rw [toJson_eq]
  refine Json.every_entriesOf ?_
  simp only [List.forall_mem_cons]
  refine ⟨Json.forall_mem_map fun _ _ => every_text hq _,
    Json.forall_mem_map fun _ _ => every_text hq _,
    Json.forall_mem_ite fun _ => p.style.every_toJson hq hstyle,
    Json.forall_mem_ite fun _ => .array ?_, Json.forall_mem_map fun r hr => ?_, nofun⟩
  · exact List.forall_mem_map.2 fun a _ => a.every_toJson hq
  · rw [Option.mem_def.1 hr] at hposition
    obtain ⟨hx, hy, -⟩ := List.forall_mem_cons.1 hposition |>.imp_right List.forall_mem_cons.1
    exact .object (List.forall_mem_cons.2 ⟨.scalar hx, List.forall_mem_cons.2 ⟨.scalar hy, nofun⟩⟩)

/-- It holds in the data of a subtree when it holds of the numbers in the subtree. -/
theorem Node.every_toJson (node : Node) (hnumbers : ∀ x ∈ node.numbers, q (.real x)) :
    node.toJson.Every q := by
  induction node using Node.induction with
  | step node ih =>
    rw [numbers_eq, List.forall_mem_append, Forest.numbers_eq] at hnumbers
    obtain ⟨hprops, hchildren⟩ := hnumbers
    rw [toJson_eq]
    refine Json.every_entriesOf ?_
    simp only [List.forall_mem_cons]
    refine ⟨Json.forall_mem_some (every_text hq _), Json.forall_mem_some (node.key.every_toJson hq),
      Json.forall_mem_some (every_text hq _), Json.forall_mem_map fun _ _ => every_text hq _,
      Json.forall_mem_ite fun _ => .array ?_, Json.forall_mem_map fun p hp => ?_,
      Json.forall_mem_map fun _ _ => every_text hq _, nofun⟩
    · refine List.forall_mem_map.2 fun child hchild => ih child hchild fun x hx => ?_
      exact hchildren x (List.mem_flatMap_of_mem hchild hx)
    · refine p.every_toJson hq fun x hx => hprops x ?_
      rw [Option.mem_def.1 hp]
      exact hx

/-- It holds in the data of a forest when it holds of the numbers in the forest. -/
theorem Forest.every_toJson (forest : Forest)
    (hnumbers : ∀ x ∈ Forest.numbers forest, q (.real x)) :
    (Json.array (forest.map Node.toJson)).Every q := by
  rw [Forest.numbers_eq] at hnumbers
  refine .array (List.forall_mem_map.2 fun node hnode => node.every_toJson hq fun x hx => ?_)
  exact hnumbers x (List.mem_flatMap_of_mem hnode hx)

/-- It holds in the data of a change when it holds of the numbers in the nodes coming in. -/
theorem ListEdit.every_toJson (edit : ListEdit) (hnumbers : ∀ x ∈ edit.numbers, q (.real x)) :
    edit.toJson.Every q := by
  have hnode : ∀ node : Node, (∀ x ∈ Forest.numbers [node], q (.real x)) → node.toJson.Every q := by
    intro node hnode
    refine node.every_toJson hq fun x hx => hnode x ?_
    rw [Forest.numbers, Forest.numbers, List.append_nil]
    exact hx
  rw [toJson_eq]
  refine Json.every_entriesOf (List.forall_mem_cons.2 ⟨Json.forall_mem_some (every_text hq _), ?_⟩)
  cases edit with
  | insert index node =>
    exact List.forall_mem_cons.2 ⟨Json.forall_mem_some (.scalar (hq _ nofun nofun)),
      List.forall_mem_cons.2 ⟨Json.forall_mem_some (hnode node hnumbers), nofun⟩⟩
  | remove key => exact List.forall_mem_cons.2 ⟨Json.forall_mem_some (key.every_toJson hq), nofun⟩
  | replace key node =>
    exact List.forall_mem_cons.2 ⟨Json.forall_mem_some (key.every_toJson hq),
      List.forall_mem_cons.2 ⟨Json.forall_mem_some (hnode node hnumbers), nofun⟩⟩
  | append nodes =>
    exact List.forall_mem_cons.2
      ⟨Json.forall_mem_some (Forest.every_toJson hq nodes hnumbers), nofun⟩
  | clear => exact nofun

/-- It holds in the data of layers. -/
theorem Layer.every_toJson (layers : List Layer) : ∀ layer ∈ layers, layer.toJson.Every q := by
  induction layers using Layer.induction with
  | nil => exact nofun
  | cons layer layers ihc ihs =>
    refine List.forall_mem_cons.2 ⟨?_, ihs⟩
    rw [toJson_eq]
    refine Json.every_entriesOf ?_
    simp only [List.forall_mem_cons]
    exact ⟨Json.forall_mem_some (every_text hq _), Json.forall_mem_some (layer.key.every_toJson hq),
      Json.forall_mem_some (.scalar (hq _ nofun nofun)),
      Json.forall_mem_some (.array (List.forall_mem_map.2 ihc)), nofun⟩

end Every

end PageTree
