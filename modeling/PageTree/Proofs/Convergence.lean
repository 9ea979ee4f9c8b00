import PageTree.Proofs.Merge

/-! # Merging converges

Merging an edited list of children settles an old one, whatever the two lists are: node by node and
at every depth it becomes the edited list, and only properties that were already equal to the edited
ones are kept from an old node (**`Forest.Settles`**). What matches an edited list is left alone by
a merge (**`Forest.Matches.merge_eq`**), so a second merge changes nothing. Main statement:
`Forest.merge_converges`. -/

namespace PageTree

/-! ## Settled forests -/

/-- A node is an edited one, children apart, and its properties are a copy of the edited ones or
those of the old node it was made from, which were already equal to them. -/
structure Node.SettlesHead (source? : Option Node) (node edited : Node) : Prop where
  /-- The kinds. -/
  kind : node.kind = edited.kind
  /-- The keys. -/
  key : node.key = edited.key
  /-- The tags. -/
  tag : node.tag = edited.tag
  /-- The display names. -/
  displayName : node.displayName = edited.displayName
  /-- The contents. -/
  content : node.content = edited.content
  /-- The properties. -/
  props : node.props = edited.props ∨ ∃ source ∈ source?, node.props = source.props ∧
    agreesOption Props.agrees source.props edited.props = true

/-- Node by node and at every depth, a list of nodes made from an old one is an edited one. A node
was made from an old node that has its key and stands in the old list, or from none, and the nodes
below it were made from those below that one. -/
inductive Forest.Settles : (old forest edited : Forest) → Prop where
  /-- Lists without nodes. -/
  | nil {old : Forest} : Settles old [] []
  /-- A node and its children in front. -/
  | cons {old forest others : Forest} {node other : Node} (source? : Option Node) :
      (∀ source ∈ source?, source ∈ old ∧ source.key = other.key) →
      node.SettlesHead source? other →
      Settles (source?.elim [] Node.children) node.children other.children →
      Settles old forest others →
      Settles old (node :: forest) (other :: others)

namespace Forest

variable {old aligned forest others edited : Forest}

/-- A list that settles on an edited one has as many nodes. -/
theorem Settles.length_eq (h : Settles old forest edited) : forest.length = edited.length := by
  induction h with
  | nil => rfl
  | cons _ _ _ _ _ _ ih => rw [List.length_cons, List.length_cons, ih]

/-- A node that is taken over was made from no old one. -/
theorem Settles.copy {node : Node} (hchildren : Settles [] node.children node.children)
    (h : Settles old forest edited) : Settles old (node :: forest) (node :: edited) :=
  .cons none (fun _ hsource => absurd hsource (Option.not_mem_none _))
    ⟨rfl, rfl, rfl, rfl, rfl, .inl rfl⟩ hchildren h

/-- A list that is taken over as it is owes nothing to the old one. -/
theorem Settles.refl (old forest : Forest) : Settles old forest forest := by
  induction forest using Forest.induction generalizing old with
  | nil => exact .nil
  | cons node forest ihc ihf =>
    exact .copy (ihc []) (ihf old)

/-! ## Aligned lists -/

/-- Lists of one length stand as they are. -/
theorem align?_eq_some_self (hne : forest ≠ []) (hlength : forest.length = edited.length) :
    Forest.align? forest edited = some forest := by
  have hempty : forest.isEmpty = false := by simpa using hne
  have hle : forest.length ≤ edited.length := Nat.le_of_eq hlength
  rw [align?, hempty, if_neg Bool.false_ne_true, if_pos hle, hlength, List.drop_length,
    List.append_nil]

/-- What stands in the places of the edited nodes is an old node or, behind the old ones, the edited
node itself. -/
theorem mem_or_eq_of_align? (h : Forest.align? old edited = some aligned) :
    ∀ pair ∈ aligned.zip edited, pair.1 ∈ old ∨ pair.1 = pair.2 := by
  rintro ⟨node, other⟩ hpair
  rw [align?] at h
  split at h
  next => contradiction
  next =>
    split at h
    next hlength =>
      obtain rfl := Option.some.inj h
      -- the edited list falls into the places of the old nodes and those behind them
      have htake : old.length = (edited.take old.length).length := by
        rw [List.length_take, Nat.min_eq_left hlength]
      have hplaces : (old ++ edited.drop old.length).zip edited =
          old.zip (edited.take old.length) ++
            (edited.drop old.length).zip (edited.drop old.length) := by
        rw [← List.zip_append htake, List.take_append_drop]
      rw [hplaces, List.mem_append] at hpair
      rcases hpair with hold | hnew
      · exact .inl (List.of_mem_zip hold).1
      · rw [List.zip, List.zipWith_self, List.mem_map] at hnew
        obtain ⟨same, -, heq⟩ := hnew
        obtain ⟨rfl, rfl⟩ := Prod.mk.inj heq
        exact .inr rfl
    next =>
      dsimp only at h
      split at h
      next =>
        obtain rfl := Option.some.inj h
        exact .inl (List.mem_filter.1 (List.of_mem_zip hpair).1).1
      next => contradiction

end Forest

/-! ## Merging what matches -/

/-- Properties that are the edited ones or agree with them are left alone. -/
theorem Props.merge_eq_self {old edited : Option Props}
    (h : old = edited ∨ agreesOption Props.agrees old edited = true) :
    Props.merge old edited = old := by
  rw [Props.merge]
  split
  next => rfl
  next hdiffer => rw [Props.overwrite_eq, h.resolve_right hdiffer]

namespace Forest

variable {old aligned forest others edited : Forest}

/-- Matching forests have equally many roots. -/
theorem Matches.length_eq (h : Matches forest others) : forest.length = others.length := by
  induction h with
  | nil => rfl
  | cons _ _ _ _ ihf => rw [List.length_cons, List.length_cons, ihf]

/-- A list that matches the edited one position by position is aligned with it. -/
theorem Matches.merge_eq_mergeAligned (h : Matches forest others) :
    Forest.merge forest others = Forest.mergeAligned forest others := by
  cases h with
  | nil => rfl
  | cons head hchildren hrest =>
    have hlength := (Matches.cons head hchildren hrest).length_eq
    rw [Forest.merge, align?_eq_some_self (List.cons_ne_nil _ _) hlength]

/-- **What matches an edited list is left alone when that is merged into it.** -/
theorem Matches.merge_eq (h : Matches forest others) : Forest.merge forest others = forest := by
  rw [h.merge_eq_mergeAligned]
  induction h with
  | nil => rfl
  | @cons node other forest others head hchildren hrest ihc ihf =>
    have hnode : node.merge other = node := by
      rw [Node.merge_eq, hchildren.merge_eq_mergeAligned, ihc, Props.merge_eq_self head.props,
        ← head.kind, ← head.tag, ← head.displayName, ← head.content]
      cases node; rfl
    rw [mergeAligned_cons, mergeHead, if_pos head.key, hnode, List.tail_cons, ihf]

end Forest

/-- A node merged into itself stays as it is. -/
theorem Node.merge_self (node : Node) : node.merge node = node := by
  rw [Node.merge_eq, (Forest.Matches.refl node.children).merge_eq, Props.merge_eq_self (.inl rfl)]
  cases node; rfl

namespace Forest

variable {old aligned : Forest}

/-! ## Merging settles -/

/-- A node that an old one with its key was merged into becomes the edited one. -/
theorem settlesHead_merge {source node : Node} (hkey : source.key = node.key) :
    (source.merge node).SettlesHead (some source) node := by
  have hprops : (source.merge node).props = Props.merge source.props node.props := by
    rw [Node.merge_eq]
  have hhead := Node.matchesHead_merge hkey
  refine ⟨hhead.kind, hhead.key, hhead.tag, hhead.displayName, hhead.content, ?_⟩
  rw [hprops, Props.merge]
  split
  next hagrees => exact .inr ⟨source, rfl, rfl, hagrees⟩
  next => exact .inl (Props.overwrite_eq _ _)

/-- A list that is aligned with the edited one, with old nodes in the places of edited ones or these
themselves, settles when it is merged position by position. -/
theorem settles_mergeAligned (edited : Forest)
    (h : ∀ pair ∈ aligned.zip edited, pair.1 ∈ old ∨ pair.1 = pair.2) :
    Forest.Settles old (Forest.mergeAligned aligned edited) edited := by
  -- induction on the edited list; what is below a node that is merged settles whatever is below the
  -- old one, and a node without an old one is taken over
  induction edited using Forest.induction generalizing old aligned with
  | nil => exact .nil
  | cons node forest ihc ihf =>
    have hchildren : ∀ old : Forest,
        Forest.Settles old (Forest.merge old node.children) node.children := by
      intro old
      rw [Forest.merge]
      split
      next haligned => exact ihc (mem_or_eq_of_align? haligned)
      next => exact .refl old _
    rw [mergeAligned_cons]
    cases aligned with
    | nil => exact .copy (.refl _ _) (ihf (List.forall_mem_nil _))
    | cons first rest =>
      rw [List.zip_cons_cons, List.forall_mem_cons] at h
      have hrest := ihf h.2
      rw [mergeHead]
      split
      next hkey =>
        rcases h.1 with hold | hsame
        · refine .cons (some first) ?_ (settlesHead_merge hkey) ?_ hrest
          · rintro source ⟨rfl⟩
            exact ⟨hold, hkey⟩
          · rw [Node.merge_eq]
            exact hchildren first.children
        · obtain rfl : first = node := hsame
          rw [Node.merge_self]
          exact .copy (.refl _ _) hrest
      next => exact .copy (.refl _ _) hrest

/-- **Merging converges.** Whatever the two lists are, merging an edited list into an old one leaves
a list of its length in which, at every position and every depth, the kind, the key, the tag, the
display name, the content and the children are the edited ones, and the properties are a copy of the
edited ones or were already equal to them; merging the edited list once more changes nothing, not
even the order of a style or the sign of a zero. -/
theorem merge_converges (old edited : Forest) :
    (Forest.merge old edited).length = edited.length ∧
      Forest.Settles old (Forest.merge old edited) edited ∧
      Forest.merge (Forest.merge old edited) edited = Forest.merge old edited := by
  have hsettles : Forest.Settles old (Forest.merge old edited) edited := by
    rw [Forest.merge]
    split
    next haligned => exact settles_mergeAligned edited (mem_or_eq_of_align? haligned)
    next => exact .refl old edited
  exact ⟨hsettles.length_eq, hsettles, (matches_merge old edited).merge_eq⟩

end Forest

end PageTree
