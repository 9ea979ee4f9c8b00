import PageTree.Proofs.Session.Consistency

/-! # What a command leaves alone

A command touches its target only. **`Forest.rows`** lists the nodes of a forest one by one, each
with the key of its parent. Nodes in one place of a forest are one block of its rows
(**`Spot.exists_rows_fill`**), and what stands around the place are the other rows, which are known
by their keys (**`Spot.filter_rows_fill`**). Main statement: `Session.frame_of_reachable`, a command
that succeeds takes one block out of the rows and puts another one in its place. -/

namespace PageTree

/-! ## Rows -/

/-- A node by itself, and where it belongs. -/
structure Row where
  /-- The key of the parent, unless the node is a root. -/
  parent : Option Key
  /-- The node, without its children. -/
  node : Node

mutual

/-- The nodes of a subtree one by one, the node before its children and the children in order. -/
def Node.rows (parent : Option Key) : Node → List Row
  | { kind, key, tag, displayName, children, props, content } =>
    ⟨parent, { kind, key, tag, displayName, props, content }⟩ :: Forest.rows (some key) children

/-- The nodes of a forest one by one, its roots being children of a parent or of none. -/
def Forest.rows (parent : Option Key) : Forest → List Row
  | [] => []
  | node :: forest => node.rows parent ++ Forest.rows parent forest

end

/-- The row of a node comes before those of its children. -/
theorem Node.rows_eq (parent : Option Key) (node : Node) :
    node.rows parent =
      ⟨parent, { node with children := [] }⟩ :: Forest.rows (some node.key) node.children := by
  cases node; rfl

namespace Forest

/-- An empty forest has no rows. -/
@[simp] theorem rows_nil (parent : Option Key) : Forest.rows parent [] = [] := rfl

/-- The rows of the first tree come before those of the others. -/
@[simp] theorem rows_cons (parent : Option Key) (node : Node) (forest : Forest) :
    Forest.rows parent (node :: forest) =
      ⟨parent, { node with children := [] }⟩ ::
        (Forest.rows (some node.key) node.children ++ Forest.rows parent forest) := by
  rw [Forest.rows, Node.rows_eq, List.cons_append]

/-- The rows of two forests stand one behind the other. -/
@[simp] theorem rows_append (parent : Option Key) (f g : Forest) :
    Forest.rows parent (f ++ g) = Forest.rows parent f ++ Forest.rows parent g := by
  induction f with
  | nil => rfl
  | cons node f ih => simp only [List.cons_append, rows_cons, ih, List.append_assoc]

/-- The rows of a forest have its keys, in the same order. -/
theorem map_key_rows (parent : Option Key) (forest : Forest) :
    (Forest.rows parent forest).map (fun row => row.node.key) = Forest.keys forest := by
  induction forest using Forest.induction generalizing parent with
  | nil => rfl
  | cons node forest ihc ihf => rw [rows_cons, List.map_cons, List.map_append, ihc, ihf, keys_cons]

end Forest

namespace Spot

/-- Nodes in a place of a forest are one block of its rows, with one parent, and the rows around it
do not depend on them. -/
theorem exists_rows_fill (spot : Spot) (root : Option Key) :
    ∃ (parent : Option Key) (before after : List Row), ∀ nodes,
      Forest.rows root (spot.fill nodes) = before ++ (Forest.rows parent nodes ++ after) := by
  induction spot generalizing root with
  | top left right =>
    refine ⟨root, Forest.rows root left, Forest.rows root right, fun nodes => ?_⟩
    simp only [fill, Forest.rows_append]
  | under left parent inner right ih =>
    obtain ⟨owner, before, after, hinner⟩ := ih (some parent.key)
    refine ⟨owner, Forest.rows root left ++ ⟨root, { parent with children := [] }⟩ :: before,
      after ++ Forest.rows root right, fun nodes => ?_⟩
    simp only [fill, Forest.rows_append, Forest.rows_cons, hinner, List.append_assoc,
      List.cons_append]

variable {spot : Spot} {nodes : Forest} {parent : Option Key} {before after : List Row}

/-- With distinct class names, the rows around a place are those whose keys are not in it. -/
theorem filter_rows_fill (h : (spot.fill nodes).DistinctClasses)
    (hrows : ∀ nodes,
      Forest.rows none (spot.fill nodes) = before ++ (Forest.rows parent nodes ++ after)) :
    (Forest.rows none (spot.fill nodes)).filter (fun row => row.node.key ∉ Forest.keys nodes) =
      before ++ after := by
  have haround : ∀ row ∈ before ++ after, row.node.key ∉ Forest.keys nodes := by
    intro row hrow hkey
    have hmem : row.node.key ∈ (before ++ after).map fun row => row.node.key :=
      List.mem_map_of_mem hrow
    -- the rows around the place are all there are when nothing is in it
    have hempty := hrows []
    rw [Forest.rows_nil, List.nil_append] at hempty
    rw [← hempty, Forest.map_key_rows, keys_fill_nil] at hmem
    exact (Session.distinctClasses_fill_iff.1 h).2.2 _ hkey (Session.className_mem_classNames hmem)
  have hinside : ∀ row ∈ Forest.rows parent nodes, row.node.key ∈ Forest.keys nodes := by
    intro row hrow
    rw [← Forest.map_key_rows parent]
    exact List.mem_map_of_mem hrow
  rw [List.forall_mem_append] at haround
  rw [hrows, List.filter_append, List.filter_append,
    List.filter_eq_self.2 fun row hrow => decide_eq_true (haround.1 row hrow),
    List.filter_eq_self.2 fun row hrow => decide_eq_true (haround.2 row hrow),
    List.filter_eq_nil_iff.2 fun row hrow => by simpa using hinside row hrow, List.nil_append]

end Spot

/-! ## Commands -/

namespace Session

variable {s s' : Session}

/-- What an edited copy is merged into becomes a part of the forest that matches the copy. -/
theorem matches_arriving_edit (s : Session) (edited : Node) :
    ∀ node ∈ s.arriving (.edit edited), Forest.Matches [node] [edited] := by
  intro node hnode
  obtain ⟨current, hcurrent, rfl⟩ := List.mem_map.1 hnode
  obtain ⟨spot, -, hkey, -⟩ := Forest.exists_spot_of_find? (Option.mem_toList.1 hcurrent)
  exact Node.matches_merge hkey

/-- **Commands touch only their target.** A command that succeeds takes one block out of the rows of
the forest, those of the nodes that it takes out, and puts those of the nodes that it brings in
there. All other rows stay in their order: the nodes with their fields, their parents, and their
order among siblings. They are exactly the rows of the nodes that are not taken out, and afterwards
of those that are not brought in; and what an edit brings in matches the edited copy. -/
theorem frame_of_reachable (hs : s.Reachable) {command : Command} (h : s.perform command = .ok s')
    (hroom : s'.slots.HasRoom) :
    let gone := s.departing command
    let come := s.arriving command
    ∃ (parent : Option Key) (before after : List Row),
      Forest.rows none s.forest = before ++ (Forest.rows parent gone ++ after) ∧
      Forest.rows none s'.forest = before ++ (Forest.rows parent come ++ after) ∧
      (Forest.rows none s.forest).filter (fun row => row.node.key ∉ Forest.keys gone) =
        before ++ after ∧
      (Forest.rows none s'.forest).filter (fun row => row.node.key ∉ Forest.keys come) =
        before ++ after ∧
      ∀ edited, command = .edit edited → ∀ node ∈ come, Forest.Matches [node] [edited] := by
  intro gone come
  have hconsistent := consistent_of_reachable hs
  obtain ⟨spot, hexchange⟩ := hconsistent.exchange_of_perform h hroom
  obtain ⟨parent, before, after, hrows⟩ := spot.exists_rows_fill none
  have hdistinct := hconsistent.distinct
  rw [hexchange.before] at hdistinct ⊢
  rw [hexchange.after]
  refine ⟨parent, before, after, hrows gone, hrows come, Spot.filter_rows_fill hdistinct hrows,
    Spot.filter_rows_fill hexchange.distinct hrows, ?_⟩
  rintro edited rfl
  exact s.matches_arriving_edit edited

/-- In a list under a name that takes a number, an item gives way to one with a name that takes a
number as well, whose text has the key of the item replaced. -/
theorem frame_of_replaced_item :
    let item (key : Key) (text : Node) : Node := (Node.container "li" key).withChildren [text]
    let old := item (.number 3) (.text "b" (.number 4))
    let list := (Node.container "ul" (.name "n0")).withChildren
      [item (.number 1) (.text "a" (.number 2)), old, .container "li" (.number 5)]
    let s : Session := { forest := [list, .text "z" (.number 6)]
                         slots := .ofForest [list, .text "z" (.number 6)] }
    let new := item (.name "n7") (.text "c" old.key)
    let command : Command := .editChildren (some list.key) (.replace old.key new)
    let s' := s.after command
    s.Reachable ∧ s.perform command = .ok s' ∧ s'.slots.HasRoom ∧
    ∃ (parent : Option Key) (before after : List Row),
      Forest.rows none s.forest = before ++ (Forest.rows parent [old] ++ after) ∧
      Forest.rows none s'.forest = before ++ (Forest.rows parent [new] ++ after) ∧
      (Forest.rows none s.forest).filter (fun row => row.node.key ∉ old.keys) = before ++ after ∧
      (Forest.rows none s'.forest).filter (fun row => row.node.key ∉ new.keys) =
        before ++ after := by
  intro item old list s new command s'
  have hofForest : ofForest s.forest true = .ok s := rfl
  have hs : s.Reachable := .ofForest hofForest
  have hperform : s.perform command = .ok s' := rfl
  have hroom : s'.slots.HasRoom := by decide
  obtain ⟨parent, before, after, hbefore, hafter, hgone, hcome, -⟩ :=
    frame_of_reachable hs hperform hroom
  exact ⟨hs, hperform, hroom, parent, before, after, hbefore, hafter, hgone, hcome⟩

end Session

end PageTree
