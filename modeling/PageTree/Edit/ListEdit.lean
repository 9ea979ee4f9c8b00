import PageTree.Edit.Error
import PageTree.Node.Data
import PageTree.Node.Lookup

/-! # Edits of a list of nodes

One structural change of a list of siblings, as the user made it. **`ListEdit.apply`** makes the
change and tells which nodes it took out, and **`ListEdit.added`** tells which nodes it brings
in. -/

namespace PageTree

/-- A change of a list of siblings. -/
inductive ListEdit where
  /-- Puts a node in front of the one at an index, or at the end. -/
  | insert (index : UInt64) (node : Node)
  /-- Takes the node with a key out. -/
  | remove (key : Key)
  /-- Puts a node in the place of the one with a key. -/
  | replace (key : Key) (node : Node)
  /-- Puts nodes at the end. -/
  | append (nodes : Forest)
  /-- Takes all nodes out. -/
  | clear

namespace ListEdit

/-- The nodes that a change brings in. -/
def added : ListEdit → Forest
  | .insert _ node => [node]
  | .replace _ node => [node]
  | .append nodes => nodes
  | .remove _ => []
  | .clear => []

/-- Puts a node in the place of the first one with a key; also gives the node replaced. -/
def replaceFirst? (key : Key) (node : Node) : Forest → Option (Node × Forest)
  | [] => none
  | old :: forest =>
    if old.key = key then some (old, node :: forest)
    else (replaceFirst? key node forest).map fun (replaced, rest) => (replaced, old :: rest)

/-- Makes a change; gives the new list and the nodes taken out. -/
def apply (forest : Forest) : ListEdit → Except EditError (Forest × Forest)
  | .insert index node =>
    if index.toNat ≤ forest.length then
      .ok (forest.take index.toNat ++ node :: forest.drop index.toNat, [])
    else .error (.indexOutOfBounds index.toNat forest.length)
  | .remove key =>
    match Forest.removeFirst? key forest with
    | some (removed, rest) => .ok (rest, [removed])
    | none => .error (.nodeNotFound key)
  | .replace key node =>
    match replaceFirst? key node forest with
    | some (replaced, rest) => .ok (rest, [replaced])
    | none => .error (.nodeNotFound key)
  | .append nodes => .ok (forest ++ nodes, [])
  | .clear => .ok ([], forest)

/-! ## Data notation -/

/-- The word for a change. -/
def word : ListEdit → String
  | .insert _ _ => "insert"
  | .remove _ => "remove"
  | .replace _ _ => "replace"
  | .append _ => "appendRange"
  | .clear => "clearAll"

/-- A change is written with its word in front of its fields. -/
def toJson (edit : ListEdit) : Json :=
  .object (("op", .text edit.word) :: match edit with
    | .insert index node => [("index", .natural index), ("node", node.toJson)]
    | .remove key => [("key", key.toJson)]
    | .replace key node => [("key", key.toJson), ("node", node.toJson)]
    | .append nodes => [("nodes", .array (Forest.toJson nodes))]
    | .clear => [])

/-- Reads the fields of the change that a word names. In a change an object without entries will do
under the word for the kind of a node. -/
def ofFields? (word : String) (room : Nat) (json : Json) : Option ListEdit :=
  let readNode := Node.read? .nullOrEmpty room
  match word with
  | "insert" => do
    match ← json.fields? [.required "index", .required "node"] with
    | [index, node] =>
      some (.insert (← Json.required Json.natural? index) (← Json.required readNode node))
    | _ => none
  | "remove" => do
    match ← json.fields? [.required "key"] with
    | [key] => some (.remove (← Json.required Key.ofJson? key))
    | _ => none
  | "replace" => do
    match ← json.fields? [.required "key", .required "node"] with
    | [key, node] =>
      some (.replace (← Json.required Key.ofJson? key) (← Json.required readNode node))
    | _ => none
  | "appendRange" => do
    match ← json.fields? [.required "nodes"] with
    | [nodes] => some (.append (← Json.required (Forest.read? .nullOrEmpty room) nodes))
    | _ => none
  | "clearAll" => (json.fields? []).map fun _ => .clear
  | _ => none

/-- Reads a change: an object that holds its word under `op`, or an array with the word in front.
Everything in the value has to be readable, also what is passed over. -/
def read? : Nat → Json → Option ListEdit
  | 0, _ => none
  | room + 1, json => do
    match ← json.readable? (room + 1) with
    | .object entries =>
      match ← Json.namedField? entries (.required "op") with
      | some (.text word) => ofFields? word room (.object entries)
      | _ => none
    | .array (.text word :: items) => ofFields? word room (.array items)
    | _ => none

/-- Reads a change with all the room there is. -/
def ofJson? (json : Json) : Option ListEdit := read? Json.depthLimit json

end ListEdit

end PageTree
