import PageTree.Node.Lookup

/-! # Spots

A **`Spot`** is a forest with one place left open, among the roots or anywhere below them;
**`Spot.fill`** puts nodes into that place. Looking up a key comes down to a spot: when the search
arrives there (**`Spot.LeadsTo`**), finding gives the node in the place, updating changes it, and
taking it out leaves the place empty. Main statement: `Forest.exists_spot_of_find?`, a node that is
found stands at a spot that the search leads to. -/

namespace PageTree

namespace Forest

/-- A property of forests holds of all of them if it holds of the empty one and passes from the
children of the first node and from the other nodes to the whole. -/
@[elab_as_elim]
theorem induction {motive : Forest → Prop} (nil : motive [])
    (cons : ∀ (node : Node) (forest : Forest), motive node.children → motive forest →
      motive (node :: forest)) (forest : Forest) : motive forest := by
  -- a list whose nodes have their children settled is settled node by node; the children are so by
  -- the induction on nodes
  have hlist : ∀ forest : Forest, (∀ node ∈ forest, motive node.children) → motive forest := by
    intro forest h
    induction forest with
    | nil => exact nil
    | cons node forest ih =>
      exact cons node forest (h node List.mem_cons_self)
        (ih fun other hother => h other (List.mem_cons_of_mem _ hother))
  have hnode : ∀ node : Node, motive node.children := by
    intro node
    induction node using Node.induction with
    | step node ih => exact hlist node.children ih
  exact hlist forest fun node _ => hnode node

/-! ## Keys of a forest -/

/-- An empty forest has no keys. -/
@[simp] theorem keys_nil : Forest.keys [] = [] := rfl

/-- The keys of the first tree come before those of the others. -/
@[simp] theorem keys_cons (node : Node) (forest : Forest) :
    Forest.keys (node :: forest) =
      node.key :: (Forest.keys node.children ++ Forest.keys forest) := by
  rw [Forest.keys, Node.keys_eq, List.cons_append]

/-- The keys of two forests stand one behind the other. -/
@[simp] theorem keys_append (f g : Forest) :
    Forest.keys (f ++ g) = Forest.keys f ++ Forest.keys g := by
  rw [Forest.keys_eq, Forest.keys_eq, Forest.keys_eq, List.flatMap_append]

/-- The keys of a single tree are those of its root node. -/
theorem keys_singleton (node : Node) : Forest.keys [node] = node.keys := by
  rw [Forest.keys, Forest.keys, List.append_nil]

/-- The key of a root is among the keys. -/
theorem key_mem_keys {node : Node} {forest : Forest} (h : node ∈ forest) :
    node.key ∈ Forest.keys forest := by
  rw [Forest.keys_eq, List.mem_flatMap]
  exact ⟨node, h, by simp⟩

end Forest

/-! ## Forests with an open place -/

/-- A forest with one place left open. -/
inductive Spot where
  /-- The place is among the roots. -/
  | top (left right : Forest)
  /-- The place is below a root. -/
  | under (left : Forest) (parent : Node) (inner : Spot) (right : Forest)

namespace Spot

/-- The forest with nodes put into the open place. -/
def fill (nodes : Forest) : Spot → Forest
  | .top left right => left ++ (nodes ++ right)
  | .under left parent inner right =>
    left ++ { parent with children := inner.fill nodes } :: right

/-- The keys in front of the open place. -/
def keysBefore : Spot → List Key
  | .top left _ => Forest.keys left
  | .under left parent inner _ => Forest.keys left ++ parent.key :: inner.keysBefore

/-- The keys behind the open place. -/
def keysAfter : Spot → List Key
  | .top _ right => Forest.keys right
  | .under _ _ inner right => inner.keysAfter ++ Forest.keys right

/-- The keys of all nodes around the open place. -/
def keysAround (spot : Spot) : List Key := spot.keysBefore ++ spot.keysAfter

/-- The keys of nodes put into the open place stand together. -/
theorem keys_fill (spot : Spot) (nodes : Forest) :
    Forest.keys (spot.fill nodes) = spot.keysBefore ++ (Forest.keys nodes ++ spot.keysAfter) := by
  induction spot with
  | top left right => simp only [fill, keysBefore, keysAfter, Forest.keys_append]
  | under left parent inner right ih =>
    simp only [fill, keysBefore, keysAfter, Forest.keys_append, Forest.keys_cons, ih,
      List.append_assoc, List.cons_append]

/-- With nothing in the open place, the keys are those around it. -/
theorem keys_fill_nil (spot : Spot) : Forest.keys (spot.fill []) = spot.keysAround := by
  rw [keys_fill, Forest.keys_nil, List.nil_append, keysAround]

/-- The place among the children of a node that is put into another place. -/
def inside (outer : Spot) (node : Node) (inner : Spot) : Spot :=
  match outer with
  | .top left right => .under left node inner right
  | .under left parent spot right => .under left parent (spot.inside node inner) right

/-- Nodes put among the children of a node are in the forest that has the node. -/
theorem fill_inside (outer : Spot) (node : Node) (inner : Spot) (nodes : Forest) :
    (outer.inside node inner).fill nodes =
      outer.fill [{ node with children := inner.fill nodes }] := by
  induction outer with
  | top left right => rfl
  | under left parent spot right ih => simp only [inside, fill, ih]

/-- The spot with one more root in front. -/
def push (node : Node) : Spot → Spot
  | .top left right => .top (node :: left) right
  | .under left parent inner right => .under (node :: left) parent inner right

/-- A root in front of a spot is in front of what fills it. -/
@[simp] theorem fill_push (node : Node) (spot : Spot) (nodes : Forest) :
    (spot.push node).fill nodes = node :: spot.fill nodes := by
  cases spot <;> rfl

/-- The search for a key arrives at the open place: it does not end at a root in front of the place,
nor, if the place is below a root, at any root or below those in front. -/
def LeadsTo (key : Key) : Spot → Prop
  | .top left _ => ∀ node ∈ left, node.key ≠ key
  | .under left parent inner right =>
    key ∉ Forest.keys left ∧ (∀ node ∈ parent :: right, node.key ≠ key) ∧ inner.LeadsTo key

end Spot

/-! ## Keys that do not occur -/

namespace Forest

variable {key : Key} {forest : Forest}

/-- Below the first root is looked before the others. -/
theorem findBelow?_cons (key : Key) (node : Node) (forest : Forest) :
    Forest.findBelow? key (node :: forest) =
      (Forest.find? key node.children).or (Forest.findBelow? key forest) := by
  rw [Forest.findBelow?, Node.findBelow?_eq]

/-- Below the first root is updated if the key is there, otherwise below the others. -/
theorem updateBelow?_cons (key : Key) (change : Node → Node) (node : Node) (forest : Forest) :
    Forest.updateBelow? key change (node :: forest) =
      ((Forest.update? key change node.children).map
        fun children => { node with children := children } :: forest).or
        ((Forest.updateBelow? key change forest).map (node :: ·)) := by
  rw [Forest.updateBelow?, Node.updateBelow?_eq, Option.map_map]
  rfl

/-- Below the first root is removed if the key is there, otherwise below the others. -/
theorem removeBelow?_cons (key : Key) (node : Node) (forest : Forest) :
    Forest.removeBelow? key (node :: forest) =
      ((Forest.remove? key node.children).map
        fun r => (r.1, { node with children := r.2 } :: forest)).or
        ((Forest.removeBelow? key forest).map fun r => (r.1, node :: r.2)) := by
  rw [Forest.removeBelow?, Node.removeBelow?_eq, Option.map_map]
  rfl

/-- A key that is not among those of a forest is neither at a root nor below one. -/
theorem notMem_keys_iff : key ∉ Forest.keys forest ↔
    (∀ node ∈ forest, node.key ≠ key) ∧ ∀ node ∈ forest, key ∉ Forest.keys node.children := by
  simp only [Forest.keys_eq forest, List.mem_flatMap, Node.keys_eq, List.mem_cons, not_exists,
    not_and, not_or]
  constructor
  · intro h
    exact ⟨fun node hnode => Ne.symm (h node hnode).1, fun node hnode => (h node hnode).2⟩
  · rintro ⟨hroots, hbelow⟩ node hnode
    exact ⟨Ne.symm (hroots node hnode), hbelow node hnode⟩

/-- Finding gives nothing exactly when the key does not occur. -/
theorem find?_eq_none_iff : Forest.find? key forest = none ↔ key ∉ Forest.keys forest := by
  -- the search looks at all roots before it goes below any of them, so the two are counted apart
  have hroots : ∀ forest : Forest, List.find? (fun node => node.key == key) forest = none ↔
      ∀ node ∈ forest, node.key ≠ key := by
    intro forest
    simp only [List.find?_eq_none, beq_iff_eq, ne_eq]
  have hbelow : Forest.findBelow? key forest = none ↔
      ∀ node ∈ forest, key ∉ Forest.keys node.children := by
    induction forest using Forest.induction with
    | nil => simp [Forest.findBelow?]
    | cons node forest ihc ihf =>
      rw [findBelow?_cons, Option.or_eq_none_iff, Forest.find?, Option.or_eq_none_iff, hroots, ihc,
        ihf, List.forall_mem_cons, notMem_keys_iff]
  rw [Forest.find?, Option.or_eq_none_iff, hroots, hbelow, notMem_keys_iff]

/-- No root is updated if none has the key. -/
theorem updateFirst?_eq_none (change : Node → Node) (h : ∀ node ∈ forest, node.key ≠ key) :
    Forest.updateFirst? key change forest = none := by
  induction forest with
  | nil => rfl
  | cons node forest ih =>
    rw [Forest.updateFirst?, if_neg (h node List.mem_cons_self),
      ih fun other hother => h other (List.mem_cons_of_mem _ hother), Option.map_none]

/-- No root is removed if none has the key. -/
theorem removeFirst?_eq_none (h : ∀ node ∈ forest, node.key ≠ key) :
    Forest.removeFirst? key forest = none := by
  induction forest with
  | nil => rfl
  | cons node forest ih =>
    rw [Forest.removeFirst?, if_neg (h node List.mem_cons_self),
      ih fun other hother => h other (List.mem_cons_of_mem _ hother), Option.map_none]

/-- Nothing is changed below nodes where the key does not occur. -/
theorem updateBelow?_eq_none (change : Node → Node)
    (h : ∀ node ∈ forest, key ∉ Forest.keys node.children) :
    Forest.updateBelow? key change forest = none := by
  induction forest using Forest.induction with
  | nil => rfl
  | cons node forest ihc ihf =>
    rw [List.forall_mem_cons, notMem_keys_iff] at h
    rw [updateBelow?_cons, Forest.update?, updateFirst?_eq_none change h.1.1, ihc h.1.2, ihf h.2]
    rfl

/-- Nothing is taken out below nodes where the key does not occur. -/
theorem removeBelow?_eq_none (h : ∀ node ∈ forest, key ∉ Forest.keys node.children) :
    Forest.removeBelow? key forest = none := by
  induction forest using Forest.induction with
  | nil => rfl
  | cons node forest ihc ihf =>
    rw [List.forall_mem_cons, notMem_keys_iff] at h
    rw [removeBelow?_cons, Forest.remove?, removeFirst?_eq_none h.1.1, ihc h.1.2, ihf h.2]
    rfl

/-- Nothing is changed in a forest where the key is not found. -/
theorem update?_eq_none (change : Node → Node) (h : Forest.find? key forest = none) :
    Forest.update? key change forest = none := by
  rw [find?_eq_none_iff, notMem_keys_iff] at h
  rw [Forest.update?, updateFirst?_eq_none change h.1, updateBelow?_eq_none change h.2]
  rfl

/-- Nothing is taken out of a forest where the key is not found. -/
theorem remove?_eq_none (h : Forest.find? key forest = none) :
    Forest.remove? key forest = none := by
  rw [find?_eq_none_iff, notMem_keys_iff] at h
  rw [Forest.remove?, removeFirst?_eq_none h.1, removeBelow?_eq_none h.2]
  rfl

/-! ## Where a lookup ends -/

/-- The first root that has the key is updated. -/
theorem updateFirst?_append {left : Forest} {node : Node} (change : Node → Node) (right : Forest)
    (h : ∀ other ∈ left, other.key ≠ key) (hnode : node.key = key) :
    Forest.updateFirst? key change (left ++ node :: right) =
      some (left ++ change node :: right) := by
  induction left with
  | nil => rw [List.nil_append, Forest.updateFirst?, if_pos hnode]; rfl
  | cons other left ih =>
    rw [List.cons_append, Forest.updateFirst?, if_neg (h other List.mem_cons_self),
      ih fun n hn => h n (List.mem_cons_of_mem _ hn)]
    rfl

/-- The first root that has the key is removed. -/
theorem removeFirst?_append {left : Forest} {node : Node} (right : Forest)
    (h : ∀ other ∈ left, other.key ≠ key) (hnode : node.key = key) :
    Forest.removeFirst? key (left ++ node :: right) = some (node, left ++ right) := by
  induction left with
  | nil => rw [List.nil_append, Forest.removeFirst?, if_pos hnode]; rfl
  | cons other left ih =>
    rw [List.cons_append, Forest.removeFirst?, if_neg (h other List.mem_cons_self),
      ih fun n hn => h n (List.mem_cons_of_mem _ hn)]
    rfl

/-- Roots without the key below them are passed over by an update. -/
theorem updateBelow?_append {left : Forest} (change : Node → Node) (forest : Forest)
    (h : ∀ node ∈ left, key ∉ Forest.keys node.children) :
    Forest.updateBelow? key change (left ++ forest) =
      (Forest.updateBelow? key change forest).map (left ++ ·) := by
  induction left with
  | nil => simp
  | cons node left ih =>
    have hnode := notMem_keys_iff.1 (h node List.mem_cons_self)
    rw [List.cons_append, updateBelow?_cons, Forest.update?, updateFirst?_eq_none change hnode.1,
      updateBelow?_eq_none change hnode.2, ih fun n hn => h n (List.mem_cons_of_mem _ hn)]
    simp [Function.comp_def]

/-- Roots without the key below them are passed over by a removal. -/
theorem removeBelow?_append {left : Forest} (forest : Forest)
    (h : ∀ node ∈ left, key ∉ Forest.keys node.children) :
    Forest.removeBelow? key (left ++ forest) =
      (Forest.removeBelow? key forest).map fun r => (r.1, left ++ r.2) := by
  induction left with
  | nil => simp
  | cons node left ih =>
    have hnode := notMem_keys_iff.1 (h node List.mem_cons_self)
    rw [List.cons_append, removeBelow?_cons, Forest.remove?, removeFirst?_eq_none hnode.1,
      removeBelow?_eq_none hnode.2, ih fun n hn => h n (List.mem_cons_of_mem _ hn)]
    simp [Function.comp_def]

end Forest

namespace Spot

variable {key : Key} {spot : Spot} {node : Node}

/-- No root of a forest whose open place is below one has the key that leads to the place. -/
theorem LeadsTo.ne_of_mem_fill {left right : Forest} {parent : Node} {inner : Spot}
    (h : LeadsTo key (.under left parent inner right)) (nodes : Forest) :
    ∀ node ∈ fill nodes (.under left parent inner right), node.key ≠ key := by
  intro node hnode
  rcases List.mem_append.1 hnode with hleft | hrest
  · exact (Forest.notMem_keys_iff.1 h.1).1 node hleft
  · rcases List.mem_cons.1 hrest with rfl | hright
    · exact h.2.1 parent List.mem_cons_self
    · exact h.2.1 node (List.mem_cons_of_mem _ hright)

/-- Finding a key gives the node in the place that it leads to. -/
theorem LeadsTo.find?_fill (h : spot.LeadsTo key) (hnode : node.key = key) :
    Forest.find? key (spot.fill [node]) = some node := by
  induction spot with
  | top left right =>
    have hroots : List.find? (fun node => node.key == key) (left ++ node :: right) = some node := by
      rw [List.find?_eq_some_iff_append]
      exact ⟨beq_iff_eq.2 hnode, left, right, rfl, fun n hn => by simp [h n hn]⟩
    rw [fill, List.singleton_append, Forest.find?, hroots, Option.some_or]
  | under left parent inner right ih =>
    -- neither a root nor anything below the roots in front has the key: the search goes on inside
    have hroots := List.find?_eq_none.2 fun n hn =>
      mt beq_iff_eq.1 (h.ne_of_mem_fill [node] n hn)
    have hleft : Forest.findBelow? key left = none := by
      rw [Forest.findBelow?_eq, List.findSome?_eq_none_iff]
      exact fun n hn => Forest.find?_eq_none_iff.2 ((Forest.notMem_keys_iff.1 h.1).2 n hn)
    rw [Forest.find?, hroots, fill, Option.none_or, Forest.findBelow?_eq, List.findSome?_append,
      ← Forest.findBelow?_eq, hleft, Option.none_or, List.findSome?_cons, ih h.2.2]

/-- Updating the node with a key changes it in the place that the key leads to. -/
theorem LeadsTo.update?_fill (h : spot.LeadsTo key) (hnode : node.key = key)
    (change : Node → Node) :
    Forest.update? key change (spot.fill [node]) = some (spot.fill [change node]) := by
  induction spot with
  | top left right =>
    rw [fill, List.singleton_append, Forest.update?,
      Forest.updateFirst?_append change right h hnode]
    rfl
  | under left parent inner right ih =>
    have hfirst := Forest.updateFirst?_eq_none change (h.ne_of_mem_fill [node])
    rw [Forest.update?, hfirst, fill, Option.none_or,
      Forest.updateBelow?_append change _ (Forest.notMem_keys_iff.1 h.1).2,
      Forest.updateBelow?_cons, ih h.2.2]
    rfl

/-- Taking the node with a key out leaves the place that the key leads to empty. -/
theorem LeadsTo.remove?_fill (h : spot.LeadsTo key) (hnode : node.key = key) :
    Forest.remove? key (spot.fill [node]) = some (node, spot.fill []) := by
  induction spot with
  | top left right =>
    rw [fill, List.singleton_append, Forest.remove?, Forest.removeFirst?_append right h hnode]
    rfl
  | under left parent inner right ih =>
    have hfirst := Forest.removeFirst?_eq_none (h.ne_of_mem_fill [node])
    rw [Forest.remove?, hfirst, fill, Option.none_or,
      Forest.removeBelow?_append _ (Forest.notMem_keys_iff.1 h.1).2,
      Forest.removeBelow?_cons, ih h.2.2]
    rfl

/-- A key that does not occur around the open place leads to it. -/
theorem leadsTo_of_notMem (h : key ∉ spot.keysAround) : spot.LeadsTo key := by
  induction spot with
  | top left right =>
    rw [keysAround, keysBefore, List.mem_append, not_or] at h
    exact (Forest.notMem_keys_iff.1 h.1).1
  | under left parent inner right ih =>
    simp only [keysAround, keysBefore, keysAfter, List.mem_append, List.mem_cons, not_or] at h ih
    obtain ⟨⟨hleft, hparent, hbefore⟩, hafter, hright⟩ := h
    refine ⟨hleft, List.forall_mem_cons.2 ⟨Ne.symm hparent, ?_⟩, ih ⟨hbefore, hafter⟩⟩
    exact (Forest.notMem_keys_iff.1 hright).1

/-- A key still leads to its place behind another root that has it neither itself nor below it. -/
theorem LeadsTo.push (h : spot.LeadsTo key) (hroot : node.key ≠ key)
    (hbelow : key ∉ Forest.keys node.children) : (spot.push node).LeadsTo key := by
  cases spot with
  | top left right => exact List.forall_mem_cons.2 ⟨hroot, h⟩
  | under left parent inner right =>
    refine ⟨?_, h.2⟩
    rw [Forest.keys_cons, List.mem_cons, List.mem_append, not_or, not_or]
    exact ⟨Ne.symm hroot, hbelow, h.1⟩

end Spot

namespace Forest

variable {key : Key} {forest : Forest} {node : Node}

/-- What the search at the roots does not find is found at a spot if what is below them is. -/
theorem exists_spot_of_below
    (hbelow : (∀ root ∈ forest, root.key ≠ key) → Forest.findBelow? key forest = some node →
      ∃ spot : Spot, spot.LeadsTo key ∧ node.key = key ∧ forest = spot.fill [node])
    (h : Forest.find? key forest = some node) :
    ∃ spot : Spot, spot.LeadsTo key ∧ node.key = key ∧ forest = spot.fill [node] := by
  rw [Forest.find?] at h
  cases hroots : List.find? (fun node => node.key == key) forest with
  | some root =>
    rw [hroots, Option.some_or, Option.some.injEq] at h
    subst h
    obtain ⟨hkey, left, right, rfl, hleft⟩ := List.find?_eq_some_iff_append.1 hroots
    refine ⟨.top left right, fun n hn => ?_, beq_iff_eq.1 hkey, rfl⟩
    simpa using hleft n hn
  | none =>
    rw [hroots, Option.none_or] at h
    refine hbelow (fun root hroot => ?_) h
    simpa using List.find?_eq_none.1 hroots root hroot

/-- A node that is found stands at a spot that the search leads to. -/
theorem exists_spot_of_find? (h : Forest.find? key forest = some node) :
    ∃ spot : Spot, spot.LeadsTo key ∧ node.key = key ∧ forest = spot.fill [node] := by
  refine exists_spot_of_below (fun hroots hbelow => ?_) h
  clear h
  induction forest using Forest.induction with
  | nil => simp [Forest.findBelow?] at hbelow
  | cons root forest ihc ihf =>
    rw [List.forall_mem_cons] at hroots
    rw [findBelow?_cons] at hbelow
    cases hchild : Forest.find? key root.children with
    | some found =>
      -- below the first root, at a spot among its children
      rw [hchild, Option.some_or, Option.some.injEq] at hbelow
      subst hbelow
      obtain ⟨inner, hleads, hkey, hfill⟩ := exists_spot_of_below ihc hchild
      refine ⟨.under [] root inner forest, ⟨by simp, ?_, hleads⟩, hkey, ?_⟩
      · exact List.forall_mem_cons.2 hroots
      · rw [Spot.fill, ← hfill, List.nil_append]
        cases root; rfl
    | none =>
      -- below another root: the first one moves in front of the spot found there
      rw [hchild, Option.none_or] at hbelow
      obtain ⟨spot, hleads, hkey, hfill⟩ := ihf hroots.2 hbelow
      refine ⟨spot.push root, hleads.push hroots.1 (find?_eq_none_iff.1 hchild), hkey, ?_⟩
      rw [Spot.fill_push, ← hfill]

end Forest

end PageTree
