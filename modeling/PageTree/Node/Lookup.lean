import PageTree.Node

/-! # Looking up nodes

A key may occur more than once in a forest. Looking it up checks all nodes side by side before it
goes below the first of them, and everything below one node before the next. **`Forest.find?`**
gives the node, **`Forest.update?`** changes it in its place, **`Forest.remove?`** takes it out, and
**`Forest.parentOf?`** gives a node that has it among its children. -/

namespace PageTree

/-! ## Finding -/

mutual

/-- The node with a key below a node. -/
def Node.findBelow? (key : Key) : Node → Option Node
  | { children, .. } =>
    (children.find? fun node => node.key == key).or (Forest.findBelow? key children)

/-- The node with a key below the nodes of a forest. -/
def Forest.findBelow? (key : Key) : Forest → Option Node
  | [] => none
  | node :: forest => (node.findBelow? key).or (Forest.findBelow? key forest)

end

/-- The node with a key. -/
def Forest.find? (key : Key) (forest : Forest) : Option Node :=
  (List.find? (fun node => node.key == key) forest).or (Forest.findBelow? key forest)

mutual

/-- A node below a node that has a child with a key. -/
def Node.parentBelow? (key : Key) : Node → Option Node
  | { children, .. } =>
    (children.find? fun node => node.children.any fun child => child.key == key).or
      (Forest.parentBelow? key children)

/-- A node below the nodes of a forest that has a child with a key. -/
def Forest.parentBelow? (key : Key) : Forest → Option Node
  | [] => none
  | node :: forest => (node.parentBelow? key).or (Forest.parentBelow? key forest)

end

/-- A node that has a child with a key; there is none for a key that only a root has. -/
def Forest.parentOf? (key : Key) (forest : Forest) : Option Node :=
  (List.find? (fun node => node.children.any fun child => child.key == key) forest).or
    (Forest.parentBelow? key forest)

/-! ## Changing -/

/-- Changes the first node of a list with a key. -/
def Forest.updateFirst? (key : Key) (change : Node → Node) : Forest → Option Forest
  | [] => none
  | node :: forest =>
    if node.key = key then some (change node :: forest)
    else (Forest.updateFirst? key change forest).map (node :: ·)

mutual

/-- Changes the node with a key below a node. -/
def Node.updateBelow? (key : Key) (change : Node → Node) : Node → Option Node
  | { kind, key := own, tag, displayName, children, props, content } =>
    ((Forest.updateFirst? key change children).or (Forest.updateBelow? key change children)).map
      fun children => { kind, key := own, tag, displayName, children, props, content }

/-- Changes the node with a key below the nodes of a forest. -/
def Forest.updateBelow? (key : Key) (change : Node → Node) : Forest → Option Forest
  | [] => none
  | node :: forest =>
    ((node.updateBelow? key change).map (· :: forest)).or
      ((Forest.updateBelow? key change forest).map (node :: ·))

end

/-- Changes the node with a key; there is no result when the key does not occur. -/
def Forest.update? (key : Key) (change : Node → Node) (forest : Forest) : Option Forest :=
  (Forest.updateFirst? key change forest).or (Forest.updateBelow? key change forest)

/-! ## Taking out -/

/-- Takes the first node of a list with a key out. -/
def Forest.removeFirst? (key : Key) : Forest → Option (Node × Forest)
  | [] => none
  | node :: forest =>
    if node.key = key then some (node, forest)
    else (Forest.removeFirst? key forest).map fun (removed, rest) => (removed, node :: rest)

mutual

/-- Takes the node with a key below a node out. -/
def Node.removeBelow? (key : Key) : Node → Option (Node × Node)
  | { kind, key := own, tag, displayName, children, props, content } =>
    ((Forest.removeFirst? key children).or (Forest.removeBelow? key children)).map
      fun (removed, children) =>
        (removed, { kind, key := own, tag, displayName, children, props, content })

/-- Takes the node with a key below the nodes of a forest out. -/
def Forest.removeBelow? (key : Key) : Forest → Option (Node × Forest)
  | [] => none
  | node :: forest =>
    ((node.removeBelow? key).map fun (removed, rest) => (removed, rest :: forest)).or
      ((Forest.removeBelow? key forest).map fun (removed, rest) => (removed, node :: rest))

end

/-- Takes the node with a key out; there is no result when the key does not occur. -/
def Forest.remove? (key : Key) (forest : Forest) : Option (Node × Forest) :=
  (Forest.removeFirst? key forest).or (Forest.removeBelow? key forest)

/-! ## What is below, in terms of the children -/

/-- Looking below a node is looking in its children. -/
theorem Node.findBelow?_eq (key : Key) (node : Node) :
    node.findBelow? key = Forest.find? key node.children := by
  cases node; rfl

/-- A parent below a node is one in its children. -/
theorem Node.parentBelow?_eq (key : Key) (node : Node) :
    node.parentBelow? key = Forest.parentOf? key node.children := by
  cases node; rfl

/-- Updating below a node changes its children only. -/
theorem Node.updateBelow?_eq (key : Key) (change : Node → Node) (node : Node) :
    node.updateBelow? key change =
      (Forest.update? key change node.children).map
        fun children => { node with children := children } := by
  cases node; rfl

/-- Removing below a node changes its children only. -/
theorem Node.removeBelow?_eq (key : Key) (node : Node) :
    node.removeBelow? key =
      (Forest.remove? key node.children).map
        fun r => (r.1, { node with children := r.2 }) := by
  cases node; rfl

/-- Looking below the roots of a forest goes root by root. -/
theorem Forest.findBelow?_eq (key : Key) (forest : Forest) :
    Forest.findBelow? key forest = forest.findSome? fun node => Forest.find? key node.children := by
  induction forest with
  | nil => rfl
  | cons node forest ih =>
    rw [Forest.findBelow?, ih, Node.findBelow?_eq, List.findSome?_cons]
    cases Forest.find? key node.children <;> rfl

end PageTree
