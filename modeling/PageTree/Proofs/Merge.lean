import PageTree.Edit.Merge
import PageTree.Proofs.Spot

/-! # What a merge leaves

A forest **`Forest.Matches`** another when it is the same node by node, but for properties that may
agree instead of being equal. Main statement: `Node.matches_merge`, the node that an edited copy was
merged into matches the copy. -/

namespace PageTree

/-! ## Matching forests -/

/-- A node is the same as another, children apart, and its properties are those of the other or
agree with them. -/
structure Node.MatchesHead (node other : Node) : Prop where
  /-- The kinds. -/
  kind : node.kind = other.kind
  /-- The keys. -/
  key : node.key = other.key
  /-- The tags. -/
  tag : node.tag = other.tag
  /-- The display names. -/
  displayName : node.displayName = other.displayName
  /-- The contents. -/
  content : node.content = other.content
  /-- The properties. -/
  props : node.props = other.props ∨ agreesOption Props.agrees node.props other.props = true

/-- Node by node, a forest is the same as another but for properties that agree. -/
inductive Forest.Matches : Forest → Forest → Prop where
  /-- Forests without nodes. -/
  | nil : Matches [] []
  /-- A node and its children in front. -/
  | cons {node other : Node} {forest others : Forest} :
      node.MatchesHead other → Matches node.children other.children → Matches forest others →
      Matches (node :: forest) (other :: others)

namespace Forest

/-- Every forest matches itself. -/
theorem Matches.refl (forest : Forest) : Matches forest forest := by
  induction forest using Forest.induction with
  | nil => exact .nil
  | cons node forest ihc ihf => exact .cons ⟨rfl, rfl, rfl, rfl, rfl, .inl rfl⟩ ihc ihf

variable {forest others : Forest}

/-- Matching forests have the same keys in the same order. -/
theorem Matches.keys_eq (h : Matches forest others) : Forest.keys forest = Forest.keys others := by
  induction h with
  | nil => rfl
  | cons head _ _ ihc ihf => rw [keys_cons, keys_cons, head.key, ihc, ihf]

/-- Of two matching forests, both are empty or neither. -/
theorem Matches.isEmpty_eq (h : Matches forest others) : forest.isEmpty = others.isEmpty := by
  cases h with
  | nil => rfl
  | cons => rfl

/-! ## Merging -/

/-- The first node of a merged list: the first of the old ones is merged into if it has the key. -/
def mergeHead (old : Forest) (node : Node) : Node :=
  match old with
  | first :: _ => if first.key = node.key then first.merge node else node
  | [] => node

/-- Aligned lists are merged from the front, the other old nodes against the other edited ones. -/
theorem mergeAligned_cons (old : Forest) (node : Node) (edited : Forest) :
    mergeAligned old (node :: edited) = mergeHead old node :: mergeAligned old.tail edited := by
  cases old <;> rfl

end Forest

/-- The properties after a merge are those of the edited copy or agree with them. -/
theorem Props.merge_eq_or_agrees (old edited : Option Props) :
    Props.merge old edited = edited ∨
      agreesOption Props.agrees (Props.merge old edited) edited = true := by
  rw [Props.merge]
  split
  next h => exact .inr h
  next => exact .inl (Props.overwrite_eq old edited)

/-- But for its children, a node merged with one of its key is that one. -/
theorem Node.matchesHead_merge {old edited : Node} (h : old.key = edited.key) :
    (old.merge edited).MatchesHead edited := by
  rw [Node.merge_eq]
  exact ⟨rfl, h, rfl, rfl, rfl, Props.merge_eq_or_agrees old.props edited.props⟩

/-- Nodes are only merged when they have one key, so a list merged position by position matches the
edited one. -/
theorem Forest.matches_mergeAligned (old edited : Forest) :
    Forest.Matches (Forest.mergeAligned old edited) edited := by
  induction edited using Forest.induction generalizing old with
  | nil => exact .nil
  | cons node forest ihc ihf =>
    have hchildren : ∀ old : Forest,
        Forest.Matches (Forest.merge old node.children) node.children := by
      intro old
      rw [Forest.merge]
      split
      · exact ihc _
      · exact .refl _
    rw [Forest.mergeAligned_cons]
    -- the first node is merged only if the first old one has its key, and otherwise taken over
    cases old with
    | nil => exact .cons ⟨rfl, rfl, rfl, rfl, rfl, .inl rfl⟩ (.refl _) (ihf _)
    | cons first rest =>
      rw [Forest.mergeHead]
      split
      next hkey =>
        refine .cons (Node.matchesHead_merge hkey) ?_ (ihf _)
        rw [Node.merge_eq]
        exact hchildren first.children
      next => exact .cons ⟨rfl, rfl, rfl, rfl, rfl, .inl rfl⟩ (.refl _) (ihf _)

/-- Merging lists of children leaves a list that matches the edited one. -/
theorem Forest.matches_merge (old edited : Forest) :
    Forest.Matches (Forest.merge old edited) edited := by
  rw [Forest.merge]
  split
  · exact Forest.matches_mergeAligned _ _
  · exact .refl _

/-- **The node that an edited copy was merged into matches the copy.** -/
theorem Node.matches_merge {old edited : Node} (h : old.key = edited.key) :
    Forest.Matches [old.merge edited] [edited] := by
  refine .cons (Node.matchesHead_merge h) ?_ .nil
  rw [Node.merge_eq]
  exact Forest.matches_merge old.children edited.children

/-- Merging into the node that an edited copy was made from leaves the keys of the copy. -/
theorem Node.keys_merge {old edited : Node} (h : old.key = edited.key) :
    (old.merge edited).keys = edited.keys := by
  rw [← Forest.keys_singleton, ← Forest.keys_singleton, (Node.matches_merge h).keys_eq]

end PageTree
