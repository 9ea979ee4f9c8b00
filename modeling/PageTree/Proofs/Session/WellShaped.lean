import PageTree.Proofs.Keyless
import PageTree.Proofs.Markup.Sheet
import PageTree.Proofs.Session.Consistency

/-! # Sessions that can be written

What a session holds can be written as markup. Its class names are distinct, so that no two keys
clash. A forest is **`Forest.WellShaped`** when every element in it has a tag and no text in it owns
children, also in places that are never written, since a copy may come from there. Commands whose
nodes are well shaped keep a session so (**`Session.WellShaped.of_perform`**), wherever they put
them. Main statement: `Session.page_of_reachable`. -/

namespace PageTree

/-! ## Well-shaped forests -/

/-- Whether a node is right by itself: an element has a tag, and a text owns no children. -/
def Node.isShaped (node : Node) : Bool :=
  match node.kind with
  | .text => node.children.isEmpty
  | .single | .container => !Text.isBlankText node.tag

namespace Forest

/-- All nodes of a forest, at every depth, are right by themselves. -/
def WellShaped (forest : Forest) : Prop :=
  ∀ node ∈ Forest.visited (fun _ => true) forest, node.isShaped = true

instance (forest : Forest) : Decidable forest.WellShaped :=
  inferInstanceAs (Decidable (∀ node ∈ _, _))

variable {forest others : Forest} {node : Node}

/-- An empty forest is well shaped. -/
theorem wellShaped_nil : WellShaped [] :=
  List.forall_mem_nil _

/-- A forest is well shaped when its first node is right by itself and the nodes below it and the
others are well shaped. -/
theorem wellShaped_cons : WellShaped (node :: forest) ↔
    node.isShaped = true ∧ WellShaped node.children ∧ WellShaped forest := by
  rw [WellShaped, Forest.visited, Node.visited_eq, if_pos rfl, List.cons_append,
    List.forall_mem_cons, List.forall_mem_append]
  rfl

/-- Two forests are well shaped together when each is. -/
theorem wellShaped_append : WellShaped (forest ++ others) ↔
    WellShaped forest ∧ WellShaped others := by
  induction forest with
  | nil => rw [List.nil_append, and_iff_right wellShaped_nil]
  | cons node forest ih => rw [List.cons_append, wellShaped_cons, wellShaped_cons, ih, and_assoc,
      and_assoc]

/-- A forest is well shaped when each of its roots is. -/
theorem wellShaped_iff_forall_mem : WellShaped forest ↔ ∀ node ∈ forest, WellShaped [node] := by
  induction forest with
  | nil => exact iff_of_true wellShaped_nil (List.forall_mem_nil _)
  | cons node forest ih =>
    have hnode : WellShaped [node] ↔ node.isShaped = true ∧ WellShaped node.children := by
      rw [wellShaped_cons, and_iff_left wellShaped_nil]
    rw [List.forall_mem_cons, ← ih, hnode, wellShaped_cons, and_assoc]

/-- A well-shaped forest has no fault. -/
theorem WellShaped.fault?_eq_none (h : WellShaped forest) : Forest.fault? forest = none := by
  induction forest using Forest.induction with
  | nil => rfl
  | cons node forest ihc ihf =>
    obtain ⟨hnode, hchildren, hforest⟩ := wellShaped_cons.1 h
    rw [Forest.fault?, ihf hforest, Option.or_none, Node.fault?_eq]
    rw [Node.isShaped] at hnode
    -- a fault is exactly what the shape of the node excludes, or one of its children
    cases hkind : node.kind with
    | text =>
      rw [hkind] at hnode
      exact if_pos hnode
    | single =>
      rw [hkind] at hnode
      exact if_neg (by simpa using hnode)
    | container =>
      rw [hkind] at hnode
      dsimp only
      rw [if_neg (by simpa using hnode), ihc hchildren]

/-- Forests that match are well shaped alike. -/
theorem Matches.wellShaped_iff (h : Matches forest others) :
    WellShaped forest ↔ WellShaped others := by
  induction h with
  | nil => exact Iff.rfl
  | cons head hchildren _ ihc ihf =>
    rw [wellShaped_cons, wellShaped_cons, ihc, ihf, Node.isShaped, Node.isShaped, head.kind,
      head.tag, hchildren.isEmpty_eq]

/-- Keys do not matter for the shape of a forest. -/
theorem wellShaped_keyless : WellShaped (Forest.keyless forest) ↔ WellShaped forest := by
  induction forest using Forest.induction with
  | nil => exact Iff.rfl
  | cons node forest ihc ihf =>
    have hnode : node.keyless.isShaped = node.isShaped := by
      rw [Node.keyless_eq, Node.isShaped, Node.isShaped]
      cases node.children <;> rfl
    rw [Forest.keyless, wellShaped_cons, wellShaped_cons, hnode, ihf, Node.keyless_eq]
    exact and_congr_right fun _ => and_congr_left fun _ => ihc

end Forest

/-- A copy with new keys is well shaped if the original is. -/
theorem Slots.wellShaped_rekey (s : Slots) (node : Node) :
    Forest.WellShaped [(s.rekey node).1] ↔ Forest.WellShaped [node] := by
  have hkeyless : Forest.keyless [(s.rekey node).1] = Forest.keyless [node] :=
    congrArg (· :: []) (Slots.keyless_rekey s node)
  rw [← Forest.wellShaped_keyless, hkeyless, Forest.wellShaped_keyless]

/-! ## Places in well-shaped forests -/

namespace Spot

variable {spot : Spot} {gone come nodes : Forest}

/-- A place filled with something is in no empty forest. -/
theorem fill_ne_nil (h : nodes ≠ []) : spot.fill nodes ≠ [] := by
  cases spot with
  | top left right => simp [fill, h]
  | under left parent inner right => simp [fill]

/-- Nodes in a place of a well-shaped forest are well shaped. -/
theorem wellShaped_of_fill (h : (spot.fill nodes).WellShaped) : nodes.WellShaped := by
  induction spot with
  | top left right =>
    rw [fill, Forest.wellShaped_append, Forest.wellShaped_append] at h
    exact h.2.1
  | under left parent inner right ih =>
    rw [fill, Forest.wellShaped_append, Forest.wellShaped_cons] at h
    exact ih h.2.2.1

/-- Well-shaped nodes may take the place of others. Some have to be there: else the place could be
among the children that a text does not have. -/
theorem wellShaped_fill (h : (spot.fill gone).WellShaped) (hgone : gone ≠ [])
    (hcome : come.WellShaped) : (spot.fill come).WellShaped := by
  induction spot with
  | top left right =>
    rw [fill, Forest.wellShaped_append, Forest.wellShaped_append] at h ⊢
    exact ⟨h.1, hcome, h.2.2⟩
  | under left parent inner right ih =>
    rw [fill, Forest.wellShaped_append, Forest.wellShaped_cons] at h ⊢
    obtain ⟨hleft, hparent, hinner, hright⟩ := h
    refine ⟨hleft, ?_, ih hinner, hright⟩
    rw [Node.isShaped] at hparent ⊢
    cases hkind : parent.kind with
    | text =>
      rw [hkind] at hparent
      exact absurd (List.isEmpty_iff.1 hparent) (fill_ne_nil hgone)
    | single | container => rwa [hkind] at hparent

end Spot

/-- Every node of a list after a change was there or is added by the change. -/
theorem ListEdit.mem_or_mem_added_of_apply {change : ListEdit} {children children' removed : Forest}
    (h : change.apply children = .ok (children', removed)) :
    ∀ node ∈ children', node ∈ children ∨ node ∈ change.added := by
  intro node hnode
  obtain ⟨front, back, -, rfl, rfl⟩ := apply_eq_ok_iff.1 h
  simp only [List.mem_append] at hnode ⊢
  tauto

/-! ## Well-shaped sessions -/

/-- The nodes that a command brings in are well shaped. -/
def Command.WellShaped : Command → Prop
  | .newContainer _ tag => Text.isBlankText tag = false
  | .newSingle _ tag => Text.isBlankText tag = false
  | .edit edited => Forest.WellShaped [edited]
  | .editChildren _ change => change.added.WellShaped
  | .newText _ _ | .copy _ | .paste _ | .delete _ => True

instance : (command : Command) → Decidable command.WellShaped
  | .newContainer _ tag | .newSingle _ tag =>
    inferInstanceAs (Decidable (Text.isBlankText tag = false))
  | .edit edited => inferInstanceAs (Decidable (Forest.WellShaped [edited]))
  | .editChildren _ change => inferInstanceAs (Decidable change.added.WellShaped)
  | .newText _ _ | .copy _ | .paste _ | .delete _ => inferInstanceAs (Decidable True)

/-- A node that a well-shaped command creates is well shaped: it has a tag, or needs none. -/
theorem Command.Creates.wellShaped_make {command : Command} {parent : Option Key}
    {make : Key → Node} (h : command.Creates parent make) (hcommand : command.WellShaped)
    (key : Key) : Forest.WellShaped [make key] := by
  have hsingleton : ∀ node : Node, node.children = [] → node.isShaped = true →
      Forest.WellShaped [node] := by
    intro node hchildren hnode
    refine Forest.wellShaped_cons.2 ⟨hnode, ?_, Forest.wellShaped_nil⟩
    rw [hchildren]
    exact Forest.wellShaped_nil
  have htag : ∀ tag : String, Text.isBlankText tag = false → (!Text.isBlankText tag) = true := by
    intro tag hblank
    rw [hblank]
    rfl
  cases h with
  | container parent tag => exact hsingleton (.container tag key) rfl (htag tag hcommand)
  | single parent tag => exact hsingleton (.single tag key) rfl (htag tag hcommand)
  | text parent content => exact hsingleton (.text content key) rfl rfl

namespace Session

/-- The nodes of a session, those on the clipboard included, are well shaped. -/
structure WellShaped (s : Session) : Prop where
  /-- Those of the forest. -/
  forest : s.forest.WellShaped
  /-- Those on the clipboard. -/
  clipboard : ∀ node, s.clipboard = some node → Forest.WellShaped [node]

variable {s s' : Session} {parent : Option Key} {key : Key} {children children' : Forest}

/-- A node that is found in a well-shaped forest is well shaped. -/
theorem wellShaped_of_find? {forest : Forest} {node : Node} (hforest : forest.WellShaped)
    (h : Forest.find? key forest = some node) : Forest.WellShaped [node] := by
  obtain ⟨spot, -, -, rfl⟩ := Forest.exists_spot_of_find? h
  exact Spot.wellShaped_of_fill hforest

/-- The children of a parent are well shaped if the forest is. -/
theorem wellShaped_of_childrenOf (hforest : s.forest.WellShaped)
    (h : s.childrenOf parent = .ok children) : children.WellShaped := by
  cases parent with
  | none =>
    obtain rfl := Except.ok.inj h
    exact hforest
  | some key =>
    obtain ⟨spot, node, -, -, -, rfl, hfill⟩ := exists_spot_of_childrenOf_some h
    rw [hfill] at hforest
    exact (Forest.wellShaped_cons.1 (Spot.wellShaped_of_fill hforest)).2.1

/-- Well-shaped nodes may be put into the place of the children of a parent, which is no text. -/
theorem wellShaped_withChildrenOf (hforest : s.forest.WellShaped)
    (h : s.childrenOf parent = .ok children) (hchildren : children'.WellShaped) :
    (s.withChildrenOf parent children').WellShaped := by
  cases parent with
  | none => exact hchildren
  | some key =>
    obtain ⟨spot, node, hleads, hkey, hkind, -, hfill⟩ := exists_spot_of_childrenOf_some h
    rw [withChildrenOf, hfill, hleads.update?_fill hkey]
    rw [hfill] at hforest
    refine Spot.wellShaped_fill hforest (List.cons_ne_nil _ _) ?_
    -- the parent is the container it was, and its shape does not depend on its children
    have hnode := (Forest.wellShaped_cons.1 (Spot.wellShaped_of_fill hforest)).1
    rw [Node.isShaped, hkind] at hnode
    refine Forest.wellShaped_cons.2 ⟨?_, hchildren, Forest.wellShaped_nil⟩
    rw [Node.isShaped, hkind]
    exact hnode

/-- Well-shaped nodes may come behind the children of a parent. -/
theorem wellShaped_withChildrenOf_append {nodes : Forest} (hforest : s.forest.WellShaped)
    (h : s.childrenOf parent = .ok children) (hnodes : nodes.WellShaped) :
    (s.withChildrenOf parent (children ++ nodes)).WellShaped :=
  wellShaped_withChildrenOf hforest h
    (Forest.wellShaped_append.2 ⟨wellShaped_of_childrenOf hforest h, hnodes⟩)

/-- A command with well-shaped nodes keeps a session well shaped. -/
theorem WellShaped.of_perform {command : Command} (hs : s.WellShaped)
    (hcommand : command.WellShaped) (h : s.perform command = .ok s') : s'.WellShaped := by
  induction command using Command.kinds with
  | creates command parent make hcreates =>
    rw [hcreates.perform_eq] at h
    obtain ⟨key, hcreate⟩ := exists_of_map_snd_eq_ok h
    obtain ⟨children, hchildren, -, rfl⟩ := exists_of_create_eq_ok hcreate
    have hnode := hcreates.wellShaped_make hcommand key
    exact ⟨wellShaped_withChildrenOf_append hs.forest hchildren hnode, hs.clipboard⟩
  | copy key =>
    obtain ⟨node, hfind, rfl⟩ := copy_eq_ok h
    refine ⟨hs.forest, fun other hother => ?_⟩
    obtain rfl := Option.some.inj hother
    exact wellShaped_of_find? hs.forest hfind
  | paste parent =>
    obtain ⟨key, hpaste⟩ := exists_of_map_snd_eq_ok h
    obtain ⟨children, node, hchildren, hclipboard, -, rfl⟩ := exists_of_paste_eq_ok hpaste
    have hcopy := (Slots.wellShaped_rekey s.slots node).2 (hs.clipboard node hclipboard)
    exact ⟨wellShaped_withChildrenOf_append hs.forest hchildren hcopy, hs.clipboard⟩
  | delete key =>
    obtain ⟨removed, hdelete⟩ := exists_of_map_snd_eq_ok h
    obtain ⟨spot, -, -, hforest, rfl⟩ := delete_eq_ok hdelete
    have hbefore := hs.forest
    rw [hforest] at hbefore
    exact ⟨Spot.wellShaped_fill hbefore (List.cons_ne_nil _ _) Forest.wellShaped_nil, hs.clipboard⟩
  | edit edited =>
    obtain ⟨there, hedit⟩ := exists_of_map_snd_eq_ok h
    rcases edit_eq_ok hedit with ⟨-, -, rfl⟩ | ⟨spot, current, -, hkey, hforest, -, -, rfl⟩
    · exact hs
    · have hbefore := hs.forest
      rw [hforest] at hbefore
      -- what the node becomes has the shape of the edited copy, whatever it was before
      have hmerged := (Node.matches_merge hkey).wellShaped_iff.2 hcommand
      exact ⟨Spot.wellShaped_fill hbefore (List.cons_ne_nil _ _) hmerged, hs.clipboard⟩
  | editChildren parent change =>
    obtain ⟨children, children', removed, hchildren, happly, -, rfl⟩ := editChildren_eq_ok h
    have hbefore :=
      Forest.wellShaped_iff_forall_mem.1 (wellShaped_of_childrenOf hs.forest hchildren)
    have hadded := Forest.wellShaped_iff_forall_mem.1 hcommand
    have hafter : children'.WellShaped := Forest.wellShaped_iff_forall_mem.2 fun node hnode =>
      (ListEdit.mem_or_mem_added_of_apply happly node hnode).elim (hbefore node) (hadded node)
    exact ⟨wellShaped_withChildrenOf hs.forest hchildren hafter, hs.clipboard⟩

/-- The sessions that well-shaped forests and commands lead to, as long as a number is free after
each command. -/
inductive ReachableInShape : Session → Prop where
  /-- A session without nodes. -/
  | empty (reclaim : Bool) : ReachableInShape { reclaim := reclaim }
  /-- A session that starts from a well-shaped forest. -/
  | ofForest {forest : Forest} {reclaim : Bool} {s : Session} :
      forest.WellShaped → ofForest forest reclaim = .ok s → ReachableInShape s
  /-- The session after one more command, which brings in well-shaped nodes if any. -/
  | after {s : Session} (command : Command) : command.WellShaped → ReachableInShape s →
      (s.after command).slots.HasRoom → ReachableInShape (s.after command)

/-- What well-shaped forests and commands lead to can be reached. -/
theorem ReachableInShape.reachable (hs : s.ReachableInShape) : s.Reachable := by
  induction hs with
  | empty reclaim => exact .empty reclaim
  | ofForest _ h => exact .ofForest h
  | after command _ _ hroom ih => exact .after command ih hroom

/-- Every session that well-shaped forests and commands lead to is well shaped. -/
theorem ReachableInShape.wellShaped (hs : s.ReachableInShape) : s.WellShaped := by
  induction hs with
  | empty reclaim =>
    exact ⟨Forest.wellShaped_nil, fun node hnode => absurd hnode (Option.some_ne_none node).symm⟩
  | @ofForest forest reclaim s hforest h =>
    rw [Session.ofForest] at h
    split at h
    next => contradiction
    next =>
      obtain rfl := Except.ok.inj h
      exact ⟨hforest, fun node hnode => absurd hnode (Option.some_ne_none node).symm⟩
  | @after s command hcommand _ _ ih =>
    rw [Session.after]
    cases hresult : s.perform command with
    | error e => exact ih
    | ok s' => exact ih.of_perform hcommand hresult

/-! ## Markup -/

open Markup

/-- **Whatever is built in a session can be written.** In every session that commands lead to, the
forest has a style sheet, and no two keys clash in its page. If the forest at the start and the
nodes that commands bring in are well shaped, it has a page, under any options. -/
theorem page_of_reachable (s : Session) (options : Options) :
    (s.Reachable → (∃ sheet, styleSheet options s.forest = .ok sheet) ∧
      ∀ clash, page options s.forest ≠ .error (.classClash clash)) ∧
    (s.ReachableInShape → s.Reachable ∧ ∃ text, page options s.forest = .ok text) := by
  constructor
  · intro hs
    have hsheet := exists_styleSheet_eq_ok (consistent_of_reachable hs).distinct options
    refine ⟨hsheet, fun clash hclash => ?_⟩
    obtain ⟨sheet, hsheet⟩ := hsheet
    rw [page_eq_of_styleSheet_eq_ok hsheet] at hclash
    split at hclash
    next => exact PageError.noConfusion (Except.error.inj hclash)
    next => contradiction
  · intro hs
    obtain ⟨sheet, hsheet⟩ :=
      exists_styleSheet_eq_ok (consistent_of_reachable hs.reachable).distinct options
    refine ⟨hs.reachable, ?_⟩
    rw [page_eq_of_styleSheet_eq_ok hsheet, hs.wellShaped.forest.fault?_eq_none]
    exact ⟨_, rfl⟩

/-- A picture in a list, with a text below it that is never written there. -/
def pictureList : Forest :=
  [{ Node.container "ul" (.name "n0") with
      children := [{ Node.single "img" (.number 2) with children := [.text "alt" (.name "t")] }] }]

/-- A run that copies the text below the picture, makes a paragraph of the picture and pastes the
copy into it. -/
theorem page_of_picture_run :
    let start : Session := { forest := pictureList, slots := .ofForest pictureList }
    let copied := start.after (.copy (.name "t"))
    let edited := copied.after (.edit (Node.container "p" (.number 2)))
    let s := edited.after (.paste (some (.number 2)))
    let options : Options := { styleMode := .classes }
    s.Reachable ∧ s.ReachableInShape ∧ Forest.keys s.forest = [.name "n0", .number 2, .number 1] ∧
    (∃ sheet, styleSheet options s.forest = .ok sheet) ∧
    (∀ clash, page options s.forest ≠ .error (.classClash clash)) ∧
    ∃ text, page options s.forest = .ok text := by
  intro start copied edited s options
  have hofForest : ofForest start.forest true = .ok start := rfl
  have hstart : start.ReachableInShape := .ofForest (by decide) hofForest
  have hcopied : copied.ReachableInShape := .after _ trivial hstart (by decide)
  have hedited : edited.ReachableInShape :=
    .after (.edit (Node.container "p" (.number 2))) (by decide) hcopied (by decide)
  have hs : s.ReachableInShape := .after _ trivial hedited (by decide)
  obtain ⟨hany, hshaped⟩ := page_of_reachable s options
  exact ⟨hs.reachable, hs, by decide, (hany hs.reachable).1, (hany hs.reachable).2, (hshaped hs).2⟩

end Session

end PageTree
