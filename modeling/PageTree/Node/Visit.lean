import PageTree.Node

/-! # Visiting nodes

**`Node.visit`** meets the nodes of a subtree, a node before its children, carrying a state; it may
change each node it meets and decides by the node as it was whether to go on to its children.
**`Node.visited`** lists the nodes met. -/

namespace PageTree

variable {σ : Type}

mutual

/-- Meets a node and, where `enter` says so, its children: `act` changes the node and the state. The
children that `act` gives are not met; those of the node are, in their place. -/
def Node.visit (enter : Node → Bool) (act : σ → Node → Node × σ) (state : σ) : Node → Node × σ
  | { kind, key, tag, displayName, children, props, content } =>
    let node : Node := { kind, key, tag, displayName, children, props, content }
    let (met, state) := act state node
    if enter node then
      let (children, state) := Forest.visit enter act state children
      ({ met with children := children }, state)
    else (met, state)

/-- Meets the nodes of a forest in order. -/
def Forest.visit (enter : Node → Bool) (act : σ → Node → Node × σ) (state : σ) :
    Forest → Forest × σ
  | [] => ([], state)
  | node :: forest =>
    let (node, state) := node.visit enter act state
    let (forest, state) := Forest.visit enter act state forest
    (node :: forest, state)

end

mutual

/-- The nodes met in a subtree. -/
def Node.visited (enter : Node → Bool) : Node → List Node
  | { kind, key, tag, displayName, children, props, content } =>
    let node : Node := { kind, key, tag, displayName, children, props, content }
    node :: if enter node then Forest.visited enter children else []

/-- The nodes met in a forest. -/
def Forest.visited (enter : Node → Bool) : Forest → List Node
  | [] => []
  | node :: forest => node.visited enter ++ Forest.visited enter forest

end

/-- Puts a running number behind the tag of every node met. -/
def Forest.numberTags (enter : Node → Bool) (forest : Forest) : Forest :=
  let number (n : Nat) (node : Node) : Node × Nat :=
    ({ node with tag := node.tag ++ "#" ++ Digits.text n }, n + 1)
  (Forest.visit enter number 0 forest).1

/-- The node is changed first; where the visit enters, the children are met with the state that this
leaves. -/
theorem Node.visit_eq (enter : Node → Bool) (act : σ → Node → Node × σ) (state : σ) (node : Node) :
    node.visit enter act state =
      if enter node then
        ({ (act state node).1 with
            children := (Forest.visit enter act (act state node).2 node.children).1 },
          (Forest.visit enter act (act state node).2 node.children).2)
      else act state node := by
  cases node; rfl

/-- A node is met before its children, which are met where the visit enters. -/
theorem Node.visited_eq (enter : Node → Bool) (node : Node) :
    node.visited enter = node :: if enter node then Forest.visited enter node.children else [] := by
  cases node; rfl

end PageTree
