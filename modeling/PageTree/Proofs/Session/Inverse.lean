import PageTree.Proofs.Session.InPlace

/-! # Inverse commands

How structural commands are taken back. A subtree that a command adds (**`Session.addition?`**) goes
when its key is deleted, a deleted child comes back when it is put in at its index, and a child put
in, or into the place of another, goes again with one more change of the list. The way back finds
what the way there has left since keys are unique (**`Session.Consistent.editChildren_back`**), and
the session is then what it was (**`Session.Restored`**), because the forest determines the slots
(**`Session.Consistent.slots_eq`**). Main statement: `Session.inverses_of_reachable`. -/

namespace PageTree

/-! ## Lists of siblings -/

/-- Where no key occurs twice, nodes in front of another one have other keys. -/
theorem Forest.key_ne_of_nodup {left right : Forest} {node : Node}
    (h : (Forest.keys (left ++ node :: right)).Nodup) : ∀ other ∈ left, other.key ≠ node.key := by
  rw [Forest.keys_append, Forest.keys_cons] at h
  intro other hother heq
  refine List.disjoint_of_nodup_append h (Forest.key_mem_keys hother) ?_
  rw [heq]
  exact List.mem_cons_self

namespace ListEdit

variable {children children' removed : Forest} {key : Key} {index : UInt64} {node : Node}

/-- A node that was put in is taken out again. -/
theorem apply_remove_of_apply_insert
    (h : (insert index node).apply children = .ok (children', removed))
    (hnodup : (Forest.keys children').Nodup) :
    (remove node.key).apply children' = .ok (children, [node]) := by
  obtain ⟨front, back, hplace, rfl, rfl⟩ := apply_eq_ok_iff.1 h
  cases hplace with
  | insert =>
    -- the node put in is the first with its key, so it is the one that goes
    rw [added, List.append_assoc, List.singleton_append] at hnodup
    have hback : (remove node.key).Place front [node] back :=
      .remove (Forest.key_ne_of_nodup hnodup) rfl
    simpa [added] using hback.apply_eq

/-- A node that was replaced comes back into the place of the one that replaced it. -/
theorem apply_replace_of_apply_replace
    (h : (replace key node).apply children = .ok (children', removed))
    (hnodup : (Forest.keys children').Nodup) :
    ∃ old ∈ children, old.key = key ∧
      (replace node.key old).apply children' = .ok (children, [node]) := by
  obtain ⟨front, back, hplace, rfl, rfl⟩ := apply_eq_ok_iff.1 h
  cases hplace with
  | @replace _ old _ _ _ _ hkey =>
    rw [added, List.append_assoc, List.singleton_append] at hnodup
    have hback : (replace node.key old).Place front [node] back :=
      .replace (Forest.key_ne_of_nodup hnodup) rfl
    exact ⟨old, by simp, hkey, hback.apply_eq⟩

/-- A node stands between others, and when it is taken out from there it can be put in again. -/
theorem apply_insert_of_getElem? (h : children[index.toNat]? = some node) :
    ∃ left right, children = left ++ node :: right ∧
      (insert index node).apply (left ++ right) = .ok (children, []) := by
  obtain ⟨hindex, hnode⟩ := List.getElem?_eq_some_iff.1 h
  have hlength : (children.take index.toNat).length = index.toNat :=
    List.length_take_of_le hindex.le
  have hsplit : children =
      children.take index.toNat ++ node :: children.drop (index.toNat + 1) := by
    rw [← hnode, List.getElem_cons_drop, List.take_append_drop]
  refine ⟨children.take index.toNat, children.drop (index.toNat + 1), hsplit, ?_⟩
  have hplace : (insert index node).Place (children.take index.toNat) []
      (children.drop (index.toNat + 1)) := .insert hlength
  have happly := hplace.apply_eq
  rwa [List.append_nil, added, List.append_assoc, List.singleton_append, ← hsplit] at happly

end ListEdit

/-! ## Sessions after the way back -/

namespace Session

variable {s s' : Session} {spot : Spot} {parent : Option Key} {key : Key} {node : Node}
  {children children' removed : Forest}

/-- A session is what another one was: in any case its forest and its clipboard, and also its slots
if those of the nodes that go are given back. -/
structure Restored (s s' : Session) : Prop where
  /-- The forest is the same. -/
  forest : s'.forest = s.forest
  /-- The slots are the same if they are given back. -/
  slots : s.reclaim = true → s'.slots = s.slots
  /-- The clipboard is the same. -/
  clipboard : s'.clipboard = s.clipboard
  /-- Slots are given back as before. -/
  reclaim : s'.reclaim = s.reclaim

/-- If slots are given back, the forest determines those in use. -/
theorem Consistent.slots_eq (hs : s.Consistent) (hs' : s'.Consistent)
    (hforest : s'.forest = s.forest) (hreclaim : s.reclaim = true) (hreclaim' : s'.reclaim = true) :
    s'.slots = s.slots := by
  have hheld' := hs'.held
  have hexact' := hs'.exact hreclaim'
  rw [hforest] at hheld' hexact'
  exact Slots.ext_mem fun n =>
    ⟨fun hn => hs.held n (hexact' n hn), fun hn => hheld' n (hs.exact hreclaim n hn)⟩

/-- A consistent session that has come back to the forest of another one has come back to its
slots. -/
theorem Consistent.restored (hs : s.Consistent) (hs' : s'.Consistent)
    (hforest : s'.forest = s.forest) (hclipboard : s'.clipboard = s.clipboard)
    (hreclaim : s'.reclaim = s.reclaim) : Restored s s' :=
  ⟨hforest, fun h => hs.slots_eq hs' hforest h (hreclaim.trans h), hclipboard, hreclaim⟩

/-- In a consistent session the key of a node leads to the place where it stands. -/
theorem Consistent.leadsTo (hs : s.Consistent) (hforest : s.forest = spot.fill [node]) :
    spot.LeadsTo node.key := by
  have hdistinct := hs.distinct
  rw [hforest] at hdistinct
  exact leadsTo_of_distinctClasses hdistinct

/-- No key occurs twice among the children of a parent and below them. -/
theorem Consistent.nodup_keys_childrenOf (hs : s.Consistent)
    (h : s.childrenOf parent = .ok children) : (Forest.keys children).Nodup := by
  have hall : s.childrenOf parent = .ok ((Spot.top [] []).fill children) := by
    rw [h, Spot.fill, List.nil_append, List.append_nil]
  obtain ⟨spot, hforest, -⟩ := exists_spot_of_childrenOf hall
  have hdistinct := hs.distinct
  rw [hforest] at hdistinct
  exact (distinctClasses_fill_iff.1 hdistinct).2.1.of_map Key.className

/-- A child is the node of the forest that has its key. -/
theorem Consistent.find?_of_mem_childrenOf (hs : s.Consistent)
    (h : s.childrenOf parent = .ok children) (hnode : node ∈ children) :
    Forest.find? node.key s.forest = some node := by
  obtain ⟨left, right, rfl⟩ := List.append_of_mem hnode
  have hplace : s.childrenOf parent = .ok ((Spot.top left right).fill [node]) := h
  obtain ⟨spot, hforest, -⟩ := exists_spot_of_childrenOf hplace
  rw [hforest]
  exact (hs.leadsTo hforest).find?_fill rfl

/-- The children of a parent are there when the list of them is. -/
theorem isListOf_of_childrenOf (h : s.childrenOf parent = .ok children) :
    s.IsListOf parent children := by
  cases parent with
  | none => exact (Except.ok.inj h).symm
  | some key =>
    obtain ⟨spot, node, hleads, hkey, hkind, hchildren, hforest⟩ := exists_spot_of_childrenOf_some h
    refine ⟨node, ?_, hkind, hchildren.symm⟩
    rw [hforest]
    exact hleads.find?_fill hkey

/-! ## The way back -/

/-- A change that leads back to the children that a parent had before is made: it asks for the
forest that was there before, whose class names were distinct. -/
theorem Consistent.editChildren_back (hs : s.Consistent) (hs' : s'.Consistent) {back : ListEdit}
    (hchildren : s.childrenOf parent = .ok children)
    (hforest : s'.forest = s.withChildrenOf parent children')
    (hback : back.apply children' = .ok (children, removed)) :
    s'.editChildren parent back = .ok { s' with
      forest := s.forest
      slots := Slots.reserveAll
        (if s'.reclaim then s'.slots.releaseAll (Forest.keys removed) else s'.slots)
        (Forest.keys back.added) } := by
  obtain ⟨hchildren', hwith⟩ := childrenOf_of_forest_eq hchildren hforest
  have hbefore : s'.withChildrenOf parent children = s.forest :=
    (hwith children).trans (withChildrenOf_childrenOf hchildren)
  have hedit := editChildren_eq hchildren' hback
  obtain ⟨hok, -⟩ := hs'.exactCheck_editChildren hchildren' hback
  rw [hbefore] at hedit hok
  obtain ⟨_, hresult⟩ := hok.2 hs.distinct
  split at hedit
  next =>
    rw [hresult] at hedit
    contradiction
  next => exact hedit

/-- After a change of the children of a parent, one that leads back to the list before restores the
session. -/
theorem Consistent.exists_of_editChildren (hs : s.Consistent) {change : ListEdit}
    (h : s.editChildren parent change = .ok s') :
    ∃ children children' removed, s.childrenOf parent = .ok children ∧
      change.apply children = .ok (children', removed) ∧ (Forest.keys children').Nodup ∧
      ∀ back removed', back.apply children' = .ok (children, removed') →
        ∃ s'', s'.editChildren parent back = .ok s'' ∧ Restored s s'' := by
  obtain ⟨children, children', removed, hchildren, happly, -, hafter⟩ := editChildren_eq_ok h
  obtain ⟨spot, hexchange⟩ := hs.exchange_of_editChildren h
  have hs' := hexchange.consistent hs
  have hforest : s'.forest = s.withChildrenOf parent children' := by rw [hafter]
  have hclipboard : s'.clipboard = s.clipboard := by rw [hafter]
  obtain ⟨hchildren', -⟩ := childrenOf_of_forest_eq hchildren hforest
  refine ⟨children, children', removed, hchildren, happly, hs'.nodup_keys_childrenOf hchildren', ?_⟩
  intro back removed' hback
  have hedit := hs.editChildren_back hs' hchildren hforest hback
  obtain ⟨spot', hexchange'⟩ := hs'.exchange_of_editChildren hedit
  exact ⟨_, hedit, hs.restored (hexchange'.consistent hs') rfl hclipboard hexchange.reclaim⟩

/-- A subtree that was put behind the children of a parent is taken out by its key. -/
theorem Consistent.exists_delete_added (hs : s.Consistent) (hs' : s'.Consistent)
    (hchildren : s.childrenOf parent = .ok children)
    (hforest : s'.forest = s.withChildrenOf parent (children ++ [node]))
    (hclipboard : s'.clipboard = s.clipboard) (hreclaim : s'.reclaim = s.reclaim) :
    ∃ s'', s'.delete node.key = .ok (node, s'') ∧ Restored s s'' := by
  obtain ⟨spot, hbefore, hwith⟩ := exists_spot_of_append hchildren
  rw [hwith] at hforest
  have hdelete := delete_eq_of_leadsTo (hs'.leadsTo hforest) hforest
  obtain ⟨spot', hexchange⟩ := hs'.exchange_of_delete hdelete
  exact ⟨_, hdelete, hs.restored (hexchange.consistent hs') hbefore.symm hclipboard hreclaim⟩

/-- A child that was taken out is put in again at its index, and nothing else has changed then, not
even the slots when they are not given back. -/
theorem Consistent.insert_of_delete (hs : s.Consistent) {index : UInt64} {node' : Node}
    (hchildren : s.childrenOf parent = .ok children) (hnode : children[index.toNat]? = some node)
    (h : s.delete node.key = .ok (node', s')) :
    node' = node ∧ s'.editChildren parent (.insert index node') = .ok s := by
  obtain ⟨left, right, rfl, happly⟩ := ListEdit.apply_insert_of_getElem? hnode
  have hplace : s.childrenOf parent = .ok ((Spot.top left right).fill [node]) := hchildren
  obtain ⟨spot, hforest, hwith⟩ := exists_spot_of_childrenOf hplace
  obtain ⟨spot', hexchange⟩ := hs.exchange_of_delete h
  have hs' := hexchange.consistent hs
  rw [delete_eq_of_leadsTo (hs.leadsTo hforest) hforest] at h
  obtain ⟨rfl, hafter⟩ := Prod.mk.inj (Except.ok.inj h)
  refine ⟨rfl, ?_⟩
  have hforest' : s'.forest = s.withChildrenOf parent (left ++ right) := by
    rw [← hafter]
    exact (hwith []).symm
  have hslots : Slots.reserveAll
      (if s'.reclaim then s'.slots.releaseAll (Forest.keys []) else s'.slots)
      (Forest.keys [node]) = s.slots := by
    -- the slots of the node were in use before, and those that it has given back are taken again
    refine Slots.ext_mem fun n => ?_
    have hheld := hs.held n
    rw [hforest, mem_slotsOf_keys_fill] at hheld
    rw [Slots.mem_reserveAll, mem_slots_without, hexchange.mem_slots]
    have hnone : n ∉ slotsOf (Forest.keys []) := List.not_mem_nil
    by_cases hn : n ∈ slotsOf (Forest.keys [node])
    · exact iff_of_true (.inr hn) (hheld (.inr hn))
    · simp only [hn, hnone, not_false_eq_true, implies_true, and_true, or_false]
  rw [hs.editChildren_back hs' hchildren hforest' happly, ListEdit.added, hslots, ← hafter]

/-! ## Commands that add a subtree -/

/-- What a command adds to the forest under a key: the parent that it names and the subtree that
comes behind the children of that parent, a new node or a copy of the clipboard with new keys. -/
def addition? (s : Session) (key : Key) : Command → Option (Option Key × Node)
  | .newContainer parent tag => some (parent, .container tag key)
  | .newSingle parent tag => some (parent, .single tag key)
  | .newText parent content => some (parent, .text content key)
  | .paste parent => s.clipboard.map fun node => (parent, (s.slots.rekey node).1)
  | .copy _ | .delete _ | .edit _ | .editChildren _ _ => none

/-- A command that creates a node adds it under its key. -/
theorem addition?_eq_of_creates {command : Command} {make : Key → Node}
    (h : command.Creates parent make) (s : Session) (key : Key) :
    s.addition? key command = some (parent, make key) := by
  cases h <;> rfl

/-- A command that answers a key has put a subtree with that key behind the children of the parent
that it names. -/
theorem exists_of_answer_eq_key {command : Command} (h : s.answer command = .ok (.key key, s')) :
    ∃ parent added children, s.addition? key command = some (parent, added) ∧ added.key = key ∧
      s.childrenOf parent = .ok children ∧
      s'.forest = s.withChildrenOf parent (children ++ [added]) ∧
      s'.clipboard = s.clipboard ∧ s'.reclaim = s.reclaim := by
  induction command using Command.kinds with
  | creates command parent make hcreates =>
    rw [answer_eq_of_creates hcreates] at h
    obtain ⟨children, hchildren, -, rfl⟩ := exists_of_create_eq_ok (eq_ok_of_map_key h)
    exact ⟨parent, make key, children, addition?_eq_of_creates hcreates s key,
      hcreates.key_make key, hchildren, rfl, rfl, rfl⟩
  | paste parent =>
    obtain ⟨children, node, hchildren, hclipboard, hkey, rfl⟩ :=
      exists_of_paste_eq_ok (eq_ok_of_map_key h)
    refine ⟨parent, (s.slots.rekey node).1, children, ?_, hkey.symm, hchildren, rfl, rfl, rfl⟩
    rw [addition?, hclipboard, Option.map_some]
  | copy key | delete key | edit edited | editChildren parent change =>
    obtain ⟨a, -, heq⟩ := exists_of_map_eq_ok h
    exact Answer.noConfusion (Prod.mk.inj heq).1

/-- A command that succeeds keeps a session consistent. -/
theorem Consistent.of_answer (hs : s.Consistent) {command : Command} {answer : Answer}
    (h : s.answer command = .ok (answer, s')) (hroom : s'.slots.HasRoom) : s'.Consistent := by
  rw [← after_eq_of_answer h] at hroom ⊢
  exact hs.after command hroom

/-! ## All ways back -/

/-- **Structural commands have inverses.** In any session that commands lead to:
if a command adds a subtree under a key, deleting the key succeeds, gives that subtree and restores
the session;
if a child of a parent is deleted, putting it in again at its index succeeds and leads to the very
session before, whether slots are given back or not;
if a node is put in among the children of a parent, removing its key from them succeeds and restores
the session;
and if a node takes the place of a child, replacing it in turn with the subtree that had been there
succeeds and restores the session. -/
theorem inverses_of_reachable (hs : s.Reachable) :
    (∀ command key s', s.answer command = .ok (.key key, s') → s'.slots.HasRoom →
      ∃ parent added children s'', s.addition? key command = some (parent, added) ∧
        s.IsListOf parent children ∧ s'.IsListOf parent (children ++ [added]) ∧
        s'.delete key = .ok (added, s'') ∧ Restored s s'') ∧
    (∀ parent children (index : UInt64) node removed s', s.IsListOf parent children →
      children[index.toNat]? = some node → s.delete node.key = .ok (removed, s') →
      removed = node ∧ s'.editChildren parent (.insert index removed) = .ok s) ∧
    (∀ parent index node s', s.editChildren parent (.insert index node) = .ok s' →
      ∃ s'', s'.editChildren parent (.remove node.key) = .ok s'' ∧ Restored s s'') ∧
    (∀ parent key node s', s.editChildren parent (.replace key node) = .ok s' →
      ∃ old s'', Forest.find? key s.forest = some old ∧
        s'.editChildren parent (.replace node.key old) = .ok s'' ∧ Restored s s'') := by
  have hconsistent := consistent_of_reachable hs
  refine ⟨?_, ?_, ?_, ?_⟩
  · intro command key s' hanswer hroom
    -- the node added is the last child, and nothing else has its key
    obtain ⟨parent, added, children, haddition, rfl, hchildren, hforest, hclipboard, hreclaim⟩ :=
      exists_of_answer_eq_key hanswer
    have hconsistent' := hconsistent.of_answer hanswer hroom
    obtain ⟨s'', hdelete, hrestored⟩ :=
      hconsistent.exists_delete_added hconsistent' hchildren hforest hclipboard hreclaim
    have hlist' := isListOf_of_childrenOf (childrenOf_of_forest_eq hchildren hforest).1
    exact ⟨parent, added, children, s'', haddition, isListOf_of_childrenOf hchildren, hlist',
      hdelete, hrestored⟩
  · intro parent children index node removed s' hlist hnode hdelete
    exact hconsistent.insert_of_delete (childrenOf_of_isListOf hlist) hnode hdelete
  · intro parent index node s' hinsert
    obtain ⟨children, children', removed, -, happly, hnodup, hback⟩ :=
      hconsistent.exists_of_editChildren hinsert
    exact hback _ _ (ListEdit.apply_remove_of_apply_insert happly hnodup)
  · intro parent key node s' hreplace
    obtain ⟨children, children', removed, hchildren, happly, hnodup, hback⟩ :=
      hconsistent.exists_of_editChildren hreplace
    -- only the way back for the list differs; that the session comes back with it is `hback`
    obtain ⟨old, hold, rfl, happly'⟩ := ListEdit.apply_replace_of_apply_replace happly hnodup
    obtain ⟨s'', hedit, hrestored⟩ := hback _ _ happly'
    exact ⟨old, s'', hconsistent.find?_of_mem_childrenOf hchildren hold, hedit, hrestored⟩

/-- The ways back in a session with a list under a name that takes a slot: its copy goes again, its
item comes back, and so it does after a text has stood next to it or in its place, there under the
name spelled like its class. -/
theorem inverses_of_list_run :
    let item := Node.text "a" (.number 1)
    let list := Node.container "ul" (.name "n0") |>.withChildren [item]
    let start : Session := { forest := [list], slots := .ofForest [list] }
    let s := start.after (.copy list.key)
    let parent := some list.key
    let pasted := s.after (.paste none)
    let deleted := s.after (.delete item.key)
    let beside := Node.text "b" (.name "b")
    let inserted := s.after (.editChildren parent (.insert 1 beside))
    let instead := Node.text "b" (.name "n1")
    let replaced := s.after (.editChildren parent (.replace item.key instead))
    s.Reachable ∧
    (s.answer (.paste none) = .ok (.key (.number 2), pasted) ∧ pasted.slots.HasRoom ∧
      ∃ added s'', pasted.delete (.number 2) = .ok (added, s'') ∧ Restored s s'') ∧
    (s.IsListOf parent [item] ∧ s.delete item.key = .ok (item, deleted) ∧
      deleted.editChildren parent (.insert 0 item) = .ok s) ∧
    (s.editChildren parent (.insert 1 beside) = .ok inserted ∧
      ∃ s'', inserted.editChildren parent (.remove beside.key) = .ok s'' ∧ Restored s s'') ∧
    s.editChildren parent (.replace item.key instead) = .ok replaced ∧
      ∃ old s'', Forest.find? item.key s.forest = some old ∧
        replaced.editChildren parent (.replace instead.key old) = .ok s'' ∧ Restored s s'' := by
  intro item list start s parent pasted deleted beside inserted instead replaced
  have hofForest : ofForest [list] true = .ok start := rfl
  have hs : s.Reachable := .after _ (.ofForest hofForest) (by decide)
  obtain ⟨hadd, hdelete, hinsert, hreplace⟩ := inverses_of_reachable hs
  have hanswer : s.answer (.paste none) = .ok (.key (.number 2), pasted) := rfl
  have hroom : pasted.slots.HasRoom := by decide
  obtain ⟨_, added, _, s'', -, -, -, hback, hrestored⟩ := hadd _ _ _ hanswer hroom
  have hlist : s.IsListOf parent [item] := ⟨list, rfl, rfl, rfl⟩
  have hdeleted : s.delete item.key = .ok (item, deleted) := rfl
  have hinserted : s.editChildren parent (.insert 1 beside) = .ok inserted := rfl
  have hreplaced : s.editChildren parent (.replace item.key instead) = .ok replaced := rfl
  exact ⟨hs, ⟨hanswer, hroom, added, s'', hback, hrestored⟩,
    ⟨hlist, hdeleted, (hdelete _ _ 0 _ _ _ hlist rfl hdeleted).2⟩,
    ⟨hinserted, hinsert _ _ _ _ hinserted⟩, hreplaced, hreplace _ _ _ _ hreplaced⟩

end Session

end PageTree
