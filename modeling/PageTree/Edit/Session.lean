import PageTree.Edit.ListEdit
import PageTree.Edit.Merge
import PageTree.Slots

/-! # Editing sessions

A session owns the forest of one editing surface, with the slots of its keys and a clipboard. Each
command gives its result and the session after it, or an error, and then the session is as before.
Keys that come in from outside are checked by class name, so that neither two equal keys nor a
number and the name spelled like its class come together: **`Session.ofForest`**, **`Session.edit`**
and **`Session.editChildren`** refuse them with the first key that clashes. -/

namespace PageTree

/-- An editing session. -/
structure Session where
  /-- The forest. -/
  forest : Forest := []
  /-- The slots of keys that are not handed out. -/
  slots : Slots := .empty
  /-- What was copied last. -/
  clipboard : Option Node := none
  /-- Whether the slots of nodes that leave the forest are given back. When not, no number is handed
  out twice. -/
  reclaim : Bool := true

namespace Session

/-! ## Checking keys -/

/-- The class names of keys. -/
def classNames (keys : List Key) : List String := keys.map Key.className

/-- The first key whose class name is taken, or that of an earlier key. -/
def firstClash? (taken : List String) : List Key → Option Key
  | [] => none
  | key :: keys =>
    if taken.contains key.className then some key else firstClash? (key.className :: taken) keys

/-- The class names of a forest that stay in use when keys leave it. -/
def takenWithout (leaving : List Key) (forest : Forest) : List String :=
  (classNames (Forest.keys forest)).filter fun name => !(classNames leaving).contains name

/-! ## Starting -/

/-- A session that starts from a forest and takes all of its keys into use. -/
def ofForest (forest : Forest) (reclaim : Bool) : Except EditError Session :=
  match firstClash? [] (Forest.keys forest) with
  | some key => .error (.duplicateKey key)
  | none => .ok { forest := forest, slots := .ofForest forest, reclaim := reclaim }

/-! ## Parents -/

/-- The children of a container, or the roots if no parent is named. -/
def childrenOf (s : Session) : Option Key → Except EditError Forest
  | none => .ok s.forest
  | some key =>
    match Forest.find? key s.forest with
    | none => .error (.parentNotFound key)
    | some node =>
      if node.kind = .container then .ok node.children else .error (.cannotHaveChildren key)

/-- The forest with other children in the place of those of a parent. -/
def withChildrenOf (s : Session) (parent : Option Key) (children : Forest) : Forest :=
  match parent with
  | none => children
  | some key =>
    (Forest.update? key (fun node => { node with children := children }) s.forest).getD s.forest

/-! ## Commands -/

/-- Puts a new node with the next free key behind the children of a parent. -/
def create (s : Session) (parent : Option Key) (make : Key → Node) :
    Except EditError (Key × Session) := do
  let children ← s.childrenOf parent
  let (key, slots) := s.slots.allocate
  let forest := s.withChildrenOf parent (children ++ [make key])
  return (key, { s with forest := forest, slots := slots })

/-- Creates a container. -/
def newContainer (s : Session) (parent : Option Key) (tag : String) :
    Except EditError (Key × Session) := s.create parent (Node.container tag)

/-- Creates a self-closing element. -/
def newSingle (s : Session) (parent : Option Key) (tag : String) :
    Except EditError (Key × Session) := s.create parent (Node.single tag)

/-- Creates a text. -/
def newText (s : Session) (parent : Option Key) (content : String) :
    Except EditError (Key × Session) := s.create parent (Node.text content)

/-- Copies a subtree to the clipboard. -/
def copy (s : Session) (key : Key) : Except EditError Session :=
  match Forest.find? key s.forest with
  | some node => .ok { s with clipboard := some node }
  | none => .error (.nodeNotFound key)

/-- Puts a copy of the clipboard, with keys of its own, behind the children of a parent. -/
def paste (s : Session) (parent : Option Key) : Except EditError (Key × Session) :=
  match s.clipboard with
  | none => .error .emptyClipboard
  | some node => do
    let children ← s.childrenOf parent
    let (copy, slots) := s.slots.rekey node
    let forest := s.withChildrenOf parent (children ++ [copy])
    return (copy.key, { s with forest := forest, slots := slots })

/-- Takes a subtree out. -/
def delete (s : Session) (key : Key) : Except EditError (Node × Session) :=
  match Forest.remove? key s.forest with
  | none => .error (.nodeNotFound key)
  | some (removed, forest) =>
    let slots := if s.reclaim then s.slots.releaseAll removed.keys else s.slots
    .ok (removed, { s with forest := forest, slots := slots })

/-- The slots after a subtree with some keys has become one with others. -/
def exchangeKeys (s : Session) (before after : List Key) : Slots :=
  let slots :=
    if s.reclaim then s.slots.releaseAll (before.filter fun key => !after.contains key) else s.slots
  slots.reserveAll (after.filter fun key => !before.contains key)

/-- Merges an edited copy of a node. The answer tells whether the node was still there. -/
def edit (s : Session) (edited : Node) : Except EditError (Bool × Session) :=
  match Forest.find? edited.key s.forest with
  | none => .ok (false, s)
  | some current =>
    match firstClash? (takenWithout current.keys s.forest) edited.keys with
    | some key => .error (.duplicateKey key)
    | none =>
      match Forest.mergeNode? edited s.forest with
      | none => .ok (false, s)
      | some forest =>
        let slots := s.exchangeKeys current.keys (current.merge edited).keys
        .ok (true, { s with forest := forest, slots := slots })

/-- The keys that leave the forest before those of a change come in: those of a subtree replaced. -/
def leavingKeys (s : Session) : ListEdit → List Key
  | .replace key _ => ((Forest.find? key s.forest).map Node.keys).getD []
  | _ => []

/-- Changes the children of a parent. The keys are checked before the parent is looked for. -/
def editChildren (s : Session) (parent : Option Key) (change : ListEdit) :
    Except EditError Session :=
  let added := Forest.keys change.added
  match firstClash? (takenWithout (s.leavingKeys change) s.forest) added with
  | some key => .error (.duplicateKey key)
  | none => do
    let children ← s.childrenOf parent
    let (children, removed) ← change.apply children
    let slots := if s.reclaim then s.slots.releaseAll (Forest.keys removed) else s.slots
    return { s with forest := s.withChildrenOf parent children, slots := slots.reserveAll added }

end Session

end PageTree
