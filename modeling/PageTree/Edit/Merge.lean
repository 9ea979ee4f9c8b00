import PageTree.Node.Lookup

/-! # Merging edited copies

An edited copy of a node is merged into the node it was made from, which is found by its key.
**`Node.merge`** takes over what differs, and **`Forest.merge`** does so for lists of children:
lists are brought to one length by their keys, then merged position by position. Properties that
agree stay as they are, style order included; the key of the node merged into stays too. -/

namespace PageTree

/-- Overwrites every property with that of the edited copy. -/
def Props.overwrite (old edited : Option Props) : Option Props :=
  edited.map fun e =>
    { old.getD {} with
      id := e.id
      className := e.className
      style := e.style
      attributes := e.attributes
      position := e.position }

/-- The properties after merging: those of the copy, unless they agree with the old ones. -/
def Props.merge (old edited : Option Props) : Option Props :=
  if agreesOption Props.agrees old edited then old else Props.overwrite old edited

/-- Overwriting leaves nothing of the old properties. -/
@[simp] theorem Props.overwrite_eq (old edited : Option Props) :
    Props.overwrite old edited = edited := by
  cases edited <;> rfl

/-- The old list of children with as many nodes as the edited one: nodes missing at the end are
taken from it, and nodes whose keys it lacks are dropped. There is none if the lists still differ in
length, or if there was no old child; then the edited list stands for itself. -/
def Forest.align? (old edited : Forest) : Option Forest :=
  if old.isEmpty then none
  else if old.length ≤ edited.length then some (old ++ edited.drop old.length)
  else
    let kept := old.filter fun node => edited.any fun other => other.key == node.key
    if kept.length = edited.length then some kept else none

mutual

/-- Merges an edited copy into a node. -/
def Node.merge (old : Node) : Node → Node
  | { kind, tag, displayName, children, props, content, .. } =>
    { kind, key := old.key, tag, displayName
      children := match Forest.align? old.children children with
        | some aligned => Forest.mergeAligned aligned children
        | none => children
      props := Props.merge old.props props
      content }

/-- Merges a list into one of the same length: nodes with the same key are merged, others
replaced. -/
def Forest.mergeAligned (old : Forest) : Forest → Forest
  | [] => []
  | node :: edited =>
    (match old with
      | first :: _ => if first.key = node.key then first.merge node else node
      | [] => node) ::
      Forest.mergeAligned old.tail edited

end

/-- Merges an edited list of children into a list of children. -/
def Forest.merge (old edited : Forest) : Forest :=
  match Forest.align? old edited with
  | some aligned => Forest.mergeAligned aligned edited
  | none => edited

/-- The key of the old node stays, its children and properties are merged, and the rest is that of
the edited node. -/
theorem Node.merge_eq (old edited : Node) :
    old.merge edited =
      { edited with
        key := old.key
        children := Forest.merge old.children edited.children
        props := Props.merge old.props edited.props } := by
  cases edited; rfl

/-- Merges an edited copy into the node of a forest that has its key; there is no result when that
node is gone. -/
def Forest.mergeNode? (edited : Node) (forest : Forest) : Option Forest :=
  Forest.update? edited.key (fun node => node.merge edited) forest

end PageTree
