import PageTree.Proofs.Supply

/-! # Nodes without keys

**`Node.keyless`** is a node with all its keys forgotten, so that nodes are the same but for their
keys when they are equal without them. Main statement: `Slots.keyless_rekey`, giving a subtree new
keys changes nothing else. -/

namespace PageTree

mutual

/-- A node with all its keys forgotten. -/
def Node.keyless : Node → Node
  | { kind, key := _, tag, displayName, children, props, content } =>
    { kind, key := default, tag, displayName, children := Forest.keyless children, props, content }

/-- A forest with all its keys forgotten. -/
def Forest.keyless : Forest → Forest
  | [] => []
  | node :: forest => node.keyless :: Forest.keyless forest

end

/-- A node without keys keeps its fields but for the key, and its children lose theirs. -/
theorem Node.keyless_eq (node : Node) :
    node.keyless = { node with key := default, children := Forest.keyless node.children } := by
  cases node; rfl

namespace Slots

/-- Visiting a forest to rekey it changes keys only. -/
theorem keyless_visit_renew (s : Slots) (forest : Forest) :
    Forest.keyless (Forest.visit (fun _ => true) renew s forest).1 = Forest.keyless forest := by
  induction forest using Forest.induction generalizing s with
  | nil => rfl
  | cons node forest ihc ihf =>
    simp only [Forest.visit, Node.visit_eq, if_true, Forest.keyless, Node.keyless_eq, ihc, ihf,
      renew]

/-- **New keys for a subtree change nothing else.** -/
theorem keyless_rekey (s : Slots) (node : Node) : (s.rekey node).1.keyless = node.keyless := by
  rw [rekey_eq_visit, Node.visit_eq, if_pos rfl, Node.keyless_eq, Node.keyless_eq,
    keyless_visit_renew]
  rfl

end Slots

end PageTree
