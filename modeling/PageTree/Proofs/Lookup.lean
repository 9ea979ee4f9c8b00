import PageTree.Proofs.Delimited
import PageTree.Proofs.Spot

/-! # Where lookups end

Finding, changing and taking out a node are separate searches, and so is looking for its parent. All
of them end at the same place, also when a key occurs more than once: the search leads to one spot
only, whatever is put there (**`Spot.LeadsTo.path_eq`**), and where no key occurs twice the node
right above this spot is the parent that is found (**`Spot.parentOf?_fill`**). Main statement:
`Forest.lookups_agree`. -/

namespace PageTree

namespace Forest

variable {key : Key} {forest : Forest}

/-! ## Looking for a parent -/

/-- Looking for a parent below the roots of a forest goes root by root. -/
theorem parentBelow?_eq (key : Key) (forest : Forest) :
    Forest.parentBelow? key forest =
      forest.findSome? fun node => Forest.parentOf? key node.children := by
  induction forest with
  | nil => rfl
  | cons node forest ih =>
    rw [Forest.parentBelow?, ih, Node.parentBelow?_eq, List.findSome?_cons]
    cases Forest.parentOf? key node.children <;> rfl

/-- No child answers to a key that none has. -/
theorem any_key_eq_false {children : Forest} (h : ∀ child ∈ children, child.key ≠ key) :
    (children.any fun child => child.key == key) = false := by
  rw [List.any_eq_false]
  exact fun child hchild heq => h child hchild (beq_iff_eq.1 heq)

/-- Where a key does not occur below the roots, there is no parent of a node that has it. -/
theorem parentOf?_eq_none (h : ∀ node ∈ forest, key ∉ Forest.keys node.children) :
    Forest.parentOf? key forest = none := by
  induction forest using Forest.induction with
  | nil => rfl
  | cons node forest ihc ihf =>
    have hrest := ihf fun other hother => h other (List.mem_cons_of_mem _ hother)
    obtain ⟨hchildren, hbelow⟩ := notMem_keys_iff.1 (h node List.mem_cons_self)
    rw [Forest.parentOf?, Option.or_eq_none_iff] at hrest ⊢
    rw [List.find?_cons, any_key_eq_false hchildren, Forest.parentBelow?, Node.parentBelow?_eq,
      ihc hbelow, Option.none_or]
    exact hrest

/-- Where a key occurs below one root only, this root is the parent if it has a child with the key,
and otherwise the parent is below it. -/
theorem parentOf?_append_cons {left right : Forest} (node : Node)
    (hleft : ∀ other ∈ left, key ∉ Forest.keys other.children)
    (hright : ∀ other ∈ right, key ∉ Forest.keys other.children) :
    Forest.parentOf? key (left ++ node :: right) =
      if node.children.any fun child => child.key == key then some node
      else Forest.parentOf? key node.children := by
  have hl := parentOf?_eq_none hleft
  have hr := parentOf?_eq_none hright
  rw [Forest.parentOf?, Option.or_eq_none_iff, parentBelow?_eq] at hl hr
  rw [Forest.parentOf?, List.find?_append, hl.1, Option.none_or, List.find?_cons, parentBelow?_eq,
    List.findSome?_append, hl.2, Option.none_or, List.findSome?_cons]
  cases node.children.any fun child => child.key == key with
  | true => rfl
  | false =>
    rw [hr.1, hr.2, Option.none_or, if_neg Bool.false_ne_true]
    cases Forest.parentOf? key node.children <;> rfl

end Forest

namespace Spot

variable {key : Key} {spot other : Spot} {node : Node}

/-! ## One place -/

/-- The way from the roots to the open place: an index among the roots, then one among the children
of the node before, and so on. -/
def path : Spot → List Nat
  | .top left _ => [left.length]
  | .under left _ inner _ => left.length :: inner.path

/-- The search for a key leads to one place only. -/
theorem LeadsTo.path_eq {node' : Node} (h : spot.LeadsTo key) (h' : other.LeadsTo key)
    (hnode : node.key = key) (hnode' : node'.key = key)
    (heq : spot.fill [node] = other.fill [node']) : spot.path = other.path := by
  -- a place among the roots and one below a root cannot be the same: only the first has a root with
  -- the key
  induction spot generalizing other with
  | top left right =>
    cases other with
    | top left' right' =>
      rw [path, path, (append_cons_inj_of_first h h' hnode hnode' heq).1]
    | under left' parent' inner' right' =>
      have hmem : node ∈ fill [node'] (.under left' parent' inner' right') := by
        rw [← heq, fill]
        simp
      exact absurd hnode (h'.ne_of_mem_fill [node'] node hmem)
  | under left parent inner right ih =>
    cases other with
    | top left' right' =>
      have hmem : node' ∈ fill [node] (.under left parent inner right) := by
        rw [heq, fill]
        simp
      exact absurd hnode' (h.ne_of_mem_fill [node] node' hmem)
    | under left' parent' inner' right' =>
      have hbelow : ∀ (spot : Spot) (parent node : Node), node.key = key →
          key ∈ ({ parent with children := spot.fill [node] } : Node).keys := by
        intro spot parent node hnode
        rw [Node.keys_eq, keys_fill, Forest.keys_singleton, Node.keys_eq, hnode]
        simp
      have hfront : ∀ {left : Forest}, key ∉ Forest.keys left →
          ∀ other ∈ left, key ∉ other.keys := by
        intro left hleft other hother hkey
        rw [Forest.keys_eq, List.mem_flatMap] at hleft
        exact hleft ⟨other, hother, hkey⟩
      obtain ⟨rfl, hparent, -⟩ := append_cons_inj_of_first (hfront h.1) (hfront h'.1)
        (hbelow inner parent node hnode) (hbelow inner' parent' node' hnode') heq
      rw [path, path, ih h.2.2 h'.2.2 (congrArg Node.children hparent)]

/-! ## The node above -/

/-- A place is among the roots or among the children of a node. -/
theorem eq_top_or_inside (spot : Spot) :
    (∃ left right, spot = .top left right) ∨
      ∃ outer parent left right, spot = inside outer parent (.top left right) := by
  induction spot with
  | top left right => exact .inl ⟨left, right, rfl⟩
  | under left parent inner right ih =>
    rcases ih with ⟨left', right', rfl⟩ | ⟨outer, parent', left', right', rfl⟩
    · exact .inr ⟨.top left right, parent, left', right', rfl⟩
    · exact .inr ⟨.under left parent outer right, parent', left', right', rfl⟩

/-- A node that is the only one with its key has no parent if it stands among the roots. -/
theorem parentOf?_fill_top {left right : Forest} (hnode : key ∉ Forest.keys node.children)
    (haround : key ∉ (Spot.top left right).keysAround) :
    Forest.parentOf? key ((Spot.top left right).fill [node]) = none := by
  rw [keysAround, keysBefore, keysAfter, List.mem_append, not_or] at haround
  refine Forest.parentOf?_eq_none fun other hother => ?_
  rw [fill, List.mem_append, List.mem_append, List.mem_singleton] at hother
  rcases hother with hleft | rfl | hright
  · exact (Forest.notMem_keys_iff.1 haround.1).2 other hleft
  · exact hnode
  · exact (Forest.notMem_keys_iff.1 haround.2).2 other hright

/-- No child of a root has a key that leads to a place further below. -/
theorem LeadsTo.ne_of_mem_fill_inside {outer inner : Spot} {parent : Node}
    (h : (inside outer parent inner).LeadsTo key) (nodes : Forest) :
    ∀ child ∈ (inside outer parent inner).fill nodes, child.key ≠ key := by
  cases outer with
  | top before after => exact ne_of_mem_fill h nodes
  | under before above spot after => exact ne_of_mem_fill h nodes

/-- The parent that is found of the only node with a key is the node right above it. -/
theorem parentOf?_fill_inside {outer : Spot} {parent : Node} {left right : Forest}
    (hnode : node.key = key)
    (haround : key ∉ (inside outer parent (.top left right)).keysAround) :
    Forest.parentOf? key ((inside outer parent (.top left right)).fill [node]) =
      some { parent with children := left ++ node :: right } := by
  induction outer with
  | top before after =>
    rw [inside] at haround ⊢
    simp only [keysAround, keysBefore, keysAfter, List.mem_append, List.mem_cons, not_or] at haround
    have hchild : (left ++ node :: right).any (fun child => child.key == key) = true :=
      List.any_eq_true.2 ⟨node, by simp, beq_iff_eq.2 hnode⟩
    exact (Forest.parentOf?_append_cons _ (Forest.notMem_keys_iff.1 haround.1.1).2
      (Forest.notMem_keys_iff.1 haround.2.2).2).trans (if_pos hchild)
  | under before above outer after ih =>
    rw [inside] at haround ⊢
    simp only [keysAround, keysBefore, keysAfter, List.mem_append, List.mem_cons, not_or] at haround
    obtain ⟨⟨hbefore, -, hinner⟩, hinner', hafter⟩ := haround
    have haround' : key ∉ (inside outer parent (.top left right)).keysAround := by
      rw [keysAround, List.mem_append, not_or]
      exact ⟨hinner, hinner'⟩
    -- the node is no child of the root, but further below
    have hchildren := (leadsTo_of_notMem haround').ne_of_mem_fill_inside [node]
    rw [fill, Forest.parentOf?_append_cons _ (Forest.notMem_keys_iff.1 hbefore).2
      (Forest.notMem_keys_iff.1 hafter).2]
    dsimp only
    rw [Forest.any_key_eq_false hchildren, if_neg Bool.false_ne_true, ih haround']

/-- Where no key occurs twice, a node in a place among the roots has no parent, and the parent of
any other is the node among whose children the place is. -/
theorem parentOf?_fill (hnodup : (Forest.keys (spot.fill [node])).Nodup) (hnode : node.key = key) :
    (∃ left right, spot = .top left right ∧ Forest.parentOf? key (spot.fill [node]) = none) ∨
      ∃ (outer : Spot) (parent : Node) (left right : Forest),
        spot = outer.inside parent (.top left right) ∧
        Forest.parentOf? key (spot.fill [node]) =
          some { parent with children := left ++ node :: right } := by
  have hperm : (Forest.keys (spot.fill [node])).Perm (Forest.keys [node] ++ spot.keysAround) := by
    rw [keys_fill, keysAround]
    exact List.perm_append_comm_assoc _ _ _
  rw [hperm.nodup_iff, Forest.keys_singleton, Node.keys_eq, hnode, List.cons_append,
    List.nodup_cons, List.mem_append, not_or] at hnodup
  obtain ⟨⟨hbelow, haround⟩, -⟩ := hnodup
  rcases eq_top_or_inside spot with ⟨left, right, rfl⟩ | ⟨outer, parent, left, right, rfl⟩
  · exact .inl ⟨left, right, rfl, parentOf?_fill_top hbelow haround⟩
  · exact .inr ⟨outer, parent, left, right, rfl, parentOf?_fill_inside hnode haround⟩

end Spot

namespace Forest

variable {key : Key} {forest : Forest}

/-! ## All lookups -/

/-- A node is found exactly when the key occurs. -/
theorem exists_find?_eq_some_iff :
    (∃ node, Forest.find? key forest = some node) ↔ key ∈ Forest.keys forest := by
  cases hfind : Forest.find? key forest with
  | none => exact iff_of_false (by simp) (find?_eq_none_iff.1 hfind)
  | some node =>
    refine iff_of_true ⟨node, rfl⟩ (Classical.byContradiction fun hnot => ?_)
    rw [find?_eq_none_iff.2 hnot] at hfind
    contradiction

/-- Where no key occurs twice, there is no parent exactly for a key that does not occur or is that
of a root. -/
theorem parentOf?_eq_none_iff (hnodup : (Forest.keys forest).Nodup) :
    Forest.parentOf? key forest = none ↔
      key ∉ Forest.keys forest ∨ ∃ root ∈ forest, root.key = key := by
  cases hfind : Forest.find? key forest with
  | none =>
    have hkey := find?_eq_none_iff.1 hfind
    exact iff_of_true (parentOf?_eq_none (notMem_keys_iff.1 hkey).2) (.inl hkey)
  | some node =>
    have hkey := exists_find?_eq_some_iff.1 ⟨node, hfind⟩
    obtain ⟨spot, hleads, hnode, rfl⟩ := exists_spot_of_find? hfind
    rcases Spot.parentOf?_fill hnodup hnode with
      ⟨left, right, rfl, hnone⟩ | ⟨outer, parent, left, right, rfl, hsome⟩
    · exact iff_of_true hnone (.inr ⟨node, by rw [Spot.fill]; simp, hnode⟩)
    · refine iff_of_false (by rw [hsome]; exact Option.some_ne_none _) ?_
      rintro (hnot | ⟨root, hroot, heq⟩)
      · exact hnot hkey
      · exact hleads.ne_of_mem_fill_inside [node] root hroot heq

/-- **All lookups end at the same place.** A key may occur more than once. A node is found exactly
when the key occurs; otherwise nothing is changed or taken out. The node that is found stands at a
place that the search leads to, at one path only: whatever node with the key is put there is found,
changing the node with the key changes the node there and nothing else, and taking it out leaves
this place empty and nothing else. If no key occurs twice, a node at a place among the roots has no
parent, and the parent found of any other is the node among whose children the place is; so there is
none exactly for a key that does not occur or is that of a root. -/
theorem lookups_agree (key : Key) (forest : Forest) :
    ((∃ node, Forest.find? key forest = some node) ↔ key ∈ Forest.keys forest) ∧
    (key ∉ Forest.keys forest →
      (∀ change, Forest.update? key change forest = none) ∧ Forest.remove? key forest = none) ∧
    (∀ node, Forest.find? key forest = some node → ∃ spot : Spot,
      (node.key = key ∧ forest = spot.fill [node] ∧ spot.LeadsTo key) ∧
      (∀ (other : Spot) (node' : Node), other.LeadsTo key → node'.key = key →
        forest = other.fill [node'] → other.path = spot.path) ∧
      (∀ other : Node, other.key = key → Forest.find? key (spot.fill [other]) = some other) ∧
      (∀ change, Forest.update? key change forest = some (spot.fill [change node])) ∧
      Forest.remove? key forest = some (node, spot.fill []) ∧
      ((Forest.keys forest).Nodup →
        (∃ left right, spot = .top left right ∧ Forest.parentOf? key forest = none) ∨
        ∃ (outer : Spot) (parent : Node) (left right : Forest),
          spot = outer.inside parent (.top left right) ∧
          Forest.parentOf? key forest = some { parent with children := left ++ node :: right })) ∧
    ((Forest.keys forest).Nodup → (Forest.parentOf? key forest = none ↔
      key ∉ Forest.keys forest ∨ ∃ root ∈ forest, root.key = key)) := by
  refine ⟨exists_find?_eq_some_iff, fun hkey => ?_, fun node hfind => ?_, parentOf?_eq_none_iff⟩
  · have hnone := find?_eq_none_iff.2 hkey
    exact ⟨fun change => update?_eq_none change hnone, remove?_eq_none hnone⟩
  · -- all four searches arrive at the spot that the key leads to
    obtain ⟨spot, hleads, hnode, rfl⟩ := exists_spot_of_find? hfind
    refine ⟨spot, ⟨hnode, rfl, hleads⟩, fun other node' hother hnode' heq => ?_,
      fun other => hleads.find?_fill, hleads.update?_fill hnode, hleads.remove?_fill hnode,
      fun hnodup => Spot.parentOf?_fill hnodup hnode⟩
    exact hother.path_eq hleads hnode' hnode heq.symm

/-- A list with an item in it, and a text behind it with the key of the item: the text comes first
in the search, though it is behind the item, and it has no parent to be found next to. In the list
by itself the item is found, and the list is its parent. -/
theorem lookups_agree_on_repeated_key :
    let item := Node.container "li" (.number 2)
    let list := Node.container "ul" (.number 1) |>.withChildren [item]
    let text := Node.text "a" (.number 2)
    let forest : Forest := [list, text]
    let mark (node : Node) : Node := { node with displayName := some "here" }
    (Forest.find? (.number 2) forest = some text ∧ ∃ spot : Spot, forest = spot.fill [text] ∧
      Forest.update? (.number 2) mark forest = some (spot.fill [mark text]) ∧
      Forest.remove? (.number 2) forest = some (text, spot.fill [])) ∧
    (.number 3 ∉ Forest.keys forest ∧ Forest.remove? (.number 3) forest = none) ∧
    (Forest.find? (.number 2) [list] = some item ∧ (Forest.keys [list]).Nodup ∧
      ∃ (outer : Spot) (parent : Node) (left right : Forest),
        [list] = (outer.inside parent (.top left right)).fill [item] ∧
        Forest.parentOf? (.number 2) [list] =
          some { parent with children := left ++ item :: right }) ∧
    Forest.parentOf? (.number 1) [list] = none := by
  intro item list text forest mark
  obtain ⟨-, -, hfound, -⟩ := lookups_agree (.number 2) forest
  obtain ⟨-, habsent, -, -⟩ := lookups_agree (.number 3) forest
  obtain ⟨-, -, hitem, -⟩ := lookups_agree (.number 2) [list]
  obtain ⟨-, -, -, hroot⟩ := lookups_agree (.number 1) [list]
  have htext : Forest.find? (.number 2) forest = some text := rfl
  have hnot : .number 3 ∉ Forest.keys forest := by decide
  have hitem' : Forest.find? (.number 2) [list] = some item := rfl
  have hnodup : (Forest.keys [list]).Nodup := by decide
  obtain ⟨spot, ⟨-, hforest, -⟩, -, -, hupdate, hremove, -⟩ := hfound text htext
  obtain ⟨spot', ⟨-, hlist, hleads⟩, -, -, -, -, hparent⟩ := hitem item hitem'
  refine ⟨⟨htext, spot, hforest, hupdate mark, hremove⟩, ⟨hnot, (habsent hnot).2⟩,
    ⟨hitem', hnodup, ?_⟩, (hroot hnodup).2 (.inr ⟨list, List.mem_singleton_self _, rfl⟩)⟩
  rcases hparent hnodup with ⟨left, right, rfl, hnone⟩ | ⟨outer, parent, left, right, rfl, hsome⟩
  · contradiction
  · exact ⟨outer, parent, left, right, hlist, hsome⟩

end Forest

end PageTree
