import PageTree.Proofs.Session.Inverse

/-! # Independent edits

Edits of two nodes, neither of which lies in the subtree of the other, commute. Merging an edited
copy puts one node into the place of another, and where keys are unique the place is known from the
key: **`Forest.put`** puts a node into the place of every node with a key, wherever it stands. Puts
at two keys commute (**`Forest.put_comm`**), and a put leaves the nodes that it does not touch to be
found as before (**`Session.Consistent.find?_put`**), so the second copy is merged into the same
node in either order. Main statement: `Session.edits_commute_of_reachable`. -/

namespace PageTree

/-! ## Putting a node into a place -/

mutual

/-- The node with another one in the place of every node with a key, the node itself included. -/
def Node.put (key : Key) (new : Node) : Node → Node
  | { kind, key := own, tag, displayName, children, props, content } =>
    if own = key then new
    else
      { kind, key := own, tag, displayName, children := Forest.put key new children, props,
        content }

/-- The forest with a node in the place of every node with a key. -/
def Forest.put (key : Key) (new : Node) : Forest → Forest
  | [] => []
  | node :: forest => Node.put key new node :: Forest.put key new forest

end

namespace Node

variable {key : Key} {node : Node}

/-- A node with the key gives way to the new one; any other has it put among its children. -/
theorem put_eq (key : Key) (new node : Node) :
    Node.put key new node =
      if node.key = key then new
      else { node with children := Forest.put key new node.children } := by
  cases node; rfl

/-- A node with the key gives way to the new one. -/
theorem put_self (new : Node) (h : node.key = key) : Node.put key new node = new := by
  rw [put_eq, if_pos h]

/-- In a node with another key the new one is put among the children. -/
theorem put_of_ne (new : Node) (h : node.key ≠ key) :
    Node.put key new node = { node with children := Forest.put key new node.children } := by
  rw [put_eq, if_neg h]

end Node

namespace Forest

variable {key : Key} {forest : Forest} {node : Node}

/-- There is nothing to put in an empty forest. -/
@[simp] theorem put_nil (key : Key) (new : Node) : Forest.put key new [] = [] := rfl

/-- In a forest the new node is put tree by tree. -/
@[simp] theorem put_cons (key : Key) (new node : Node) (forest : Forest) :
    Forest.put key new (node :: forest) = Node.put key new node :: Forest.put key new forest := rfl

/-- In two forests the new node is put in each. -/
@[simp] theorem put_append (key : Key) (new : Node) (f g : Forest) :
    Forest.put key new (f ++ g) = Forest.put key new f ++ Forest.put key new g := by
  induction f with
  | nil => rfl
  | cons node f ih => simp [ih]

/-- Nothing changes where the key does not occur. -/
theorem put_of_notMem (new : Node) (h : key ∉ Forest.keys forest) :
    Forest.put key new forest = forest := by
  induction forest using Forest.induction with
  | nil => rfl
  | cons node forest ihc ihf =>
    simp only [keys_cons, List.mem_cons, List.mem_append, not_or] at h
    rw [put_cons, Node.put_of_ne new (Ne.symm h.1), ihc h.2.1, ihf h.2.2]
    cases node; rfl

end Forest

/-- A node does not change where the key does not occur in it. -/
theorem Node.put_of_notMem {key : Key} {node : Node} (new : Node) (h : key ∉ node.keys) :
    Node.put key new node = node := by
  rw [← Forest.keys_singleton] at h
  exact (List.cons.inj (Forest.put_of_notMem new h)).1

namespace Forest

/-- **Puts at two keys commute**, if neither of the nodes put in has the other key in it. -/
theorem put_comm {a b : Key} {new new' : Node} (hne : a ≠ b) (hnew : b ∉ new.keys)
    (hnew' : a ∉ new'.keys) (forest : Forest) :
    Forest.put b new' (Forest.put a new forest) = Forest.put a new (Forest.put b new' forest) := by
  induction forest using Forest.induction with
  | nil => rfl
  | cons node forest ihc ihf =>
    simp only [put_cons, ihf, List.cons.injEq, and_true]
    by_cases ha : node.key = a
    · -- the first node put in has nothing to change, and the place is still there for it afterwards
      have hb : node.key ≠ b := ha ▸ hne
      rw [Node.put_self new ha, Node.put_of_notMem new' hnew, Node.put_of_ne new' hb, Node.put_eq,
        if_pos ha]
    · by_cases hb : node.key = b
      · rw [Node.put_self new' hb, Node.put_of_notMem new hnew', Node.put_of_ne new ha,
          Node.put_eq, if_pos hb]
      · simp only [Node.put_eq, ha, hb, if_false, ihc]

end Forest

namespace Spot

variable {key : Key} {spot : Spot} {node : Node}

/-- Where the key of a node does not occur around its place, a node put at the key comes into that
place. -/
theorem put_fill (new : Node) (h : node.key ∉ spot.keysAround) :
    Forest.put node.key new (spot.fill [node]) = spot.fill [new] := by
  induction spot with
  | top left right =>
    simp only [keysAround, keysBefore, keysAfter, List.mem_append, not_or] at h
    simp only [fill, Forest.put_append, Forest.put_cons, Forest.put_nil,
      Forest.put_of_notMem new h.1, Forest.put_of_notMem new h.2, Node.put_self new rfl]
  | under left parent inner right ih =>
    simp only [keysAround, keysBefore, keysAfter, List.mem_append, List.mem_cons, not_or] at h ih
    obtain ⟨⟨hleft, hparent, hbefore⟩, hafter, hright⟩ := h
    simp only [fill, Forest.put_append, Forest.put_cons, Forest.put_of_notMem new hleft,
      Forest.put_of_notMem new hright, Node.put_eq, Ne.symm hparent, if_false,
      ih ⟨hbefore, hafter⟩]

/-- A node stays in the forest when another one is put at a key that does not occur in it, unless it
stood below a node with that key. -/
theorem exists_spot_put (new : Node) (hnode : key ∉ node.keys)
    (hbelow : ∀ (outer : Spot) (other : Node), spot.fill [node] = outer.fill [other] →
      other.key = key → node.key ∉ other.keys) :
    ∃ spot' : Spot, Forest.put key new (spot.fill [node]) = spot'.fill [node] := by
  induction spot with
  | top left right =>
    refine ⟨.top (Forest.put key new left) (Forest.put key new right), ?_⟩
    simp only [fill, Forest.put_append, Forest.put_cons, Forest.put_nil,
      Node.put_of_notMem new hnode]
  | under left parent inner right ih =>
    have hparent : parent.key ≠ key := by
      intro hkey
      refine hbelow (.top left right) { parent with children := inner.fill [node] } rfl hkey ?_
      simp [keys_fill]
    obtain ⟨inner', hinner⟩ := ih fun outer other hfill hkey => by
      refine hbelow (.under left parent outer right) other ?_ hkey
      rw [fill, fill, hfill]
    refine ⟨.under (Forest.put key new left) parent inner' (Forest.put key new right), ?_⟩
    simp only [fill, Forest.put_append, Forest.put_cons, Node.put_eq, hparent, if_false, hinner]

end Spot

/-! ## Edits as puts -/

namespace Session

variable {s s' : Session} {edited : Node}

/-- An edit that finds its node puts what the node becomes into its place. -/
theorem Consistent.exists_of_edit (hs : s.Consistent) (h : s.edit edited = .ok (true, s')) :
    ∃ (current : Node) (spot : Spot), Forest.find? edited.key s.forest = some current ∧
      s'.forest = Forest.put edited.key (current.merge edited) s.forest ∧
      s'.clipboard = s.clipboard ∧
      Exchange s s' spot [current] [current.merge edited] := by
  rcases edit_eq_ok h with ⟨-, hthere, -⟩ | ⟨spot, current, hfind, hkey, hforest, hclash, -, rfl⟩
  · contradiction
  · refine ⟨current, spot, hfind, ?_, rfl, hs.exchange_of_edit hkey hforest hclash⟩
    -- the key is nowhere else in the forest, so putting the node in changes this place alone
    have haround : current.key ∉ spot.keysAround := by
      have hdistinct := hs.distinct
      rw [hforest] at hdistinct
      intro hmem
      refine (distinctClasses_fill_iff.1 hdistinct).2.2 current.key ?_
        (className_mem_classNames hmem)
      exact Forest.key_mem_keys (List.mem_singleton_self current)
    rw [← hkey, hforest]
    exact (Spot.put_fill _ haround).symm

/-- A key of the forest that is not in the node that goes is not in the one that comes either. -/
theorem Exchange.notMem_keys {spot : Spot} {gone come : Node} {key : Key}
    (h : Exchange s s' spot [gone] [come]) (hkey : key ∈ Forest.keys s.forest)
    (hgone : key ∉ gone.keys) : key ∉ come.keys := by
  have haround : key ∈ spot.keysAround := by
    rw [h.before, Spot.keys_fill, Forest.keys_singleton] at hkey
    simp only [Spot.keysAround, List.mem_append] at hkey ⊢
    tauto
  rw [← Forest.keys_singleton]
  exact fun hcome =>
    (distinctClasses_fill_iff.1 h.distinct).2.2 key hcome (className_mem_classNames haround)

/-- A put elsewhere leaves a node to be found: the node neither has the key of the put in it nor
stands below the node with that key. -/
theorem Consistent.find?_put (hs : s.Consistent) (hs' : s'.Consistent) {a b : Key}
    {new na nb : Node} (hforest : s'.forest = Forest.put a new s.forest)
    (ha : Forest.find? a s.forest = some na) (hb : Forest.find? b s.forest = some nb)
    (hab : b ∉ na.keys) (hba : a ∉ nb.keys) : Forest.find? b s'.forest = some nb := by
  obtain ⟨spot, -, rfl, hspot⟩ := Forest.exists_spot_of_find? hb
  have hbelow : ∀ (outer : Spot) (other : Node), spot.fill [nb] = outer.fill [other] →
      other.key = a → nb.key ∉ other.keys := by
    intro outer other hfill hkey
    -- the node with the key of the put is the one that is found
    rw [← hspot] at hfill
    have hfind := (hs.leadsTo hfill).find?_fill rfl
    rw [← hfill, hkey, ha] at hfind
    obtain rfl := Option.some.inj hfind
    exact hab
  obtain ⟨spot', hspot'⟩ := Spot.exists_spot_put new hba hbelow
  rw [← hspot, ← hforest] at hspot'
  rw [hspot']
  exact (hs'.leadsTo hspot').find?_fill rfl

/-- After edits in either order: the forest is the one with both nodes put in. -/
theorem Consistent.forest_edit_edit (hs : s.Consistent) {a b na nb : Node} {s₁ s₂ : Session}
    (ha : Forest.find? a.key s.forest = some na) (hb : Forest.find? b.key s.forest = some nb)
    (hab : b.key ∉ na.keys) (hba : a.key ∉ nb.keys)
    (h₁ : s.edit a = .ok (true, s₁)) (h₂ : s₁.edit b = .ok (true, s₂)) :
    s₂.Consistent ∧ b.key ∉ (na.merge a).keys ∧
      s₂.forest = Forest.put b.key (nb.merge b) (Forest.put a.key (na.merge a) s.forest) ∧
      s₂.clipboard = s.clipboard ∧ s₂.reclaim = s.reclaim ∧
      (s.reclaim = false → ∀ n, n ∈ s₂.slots ↔
        n ∈ s.slots ∨ n ∈ slotsOf (na.merge a).keys ∨ n ∈ slotsOf (nb.merge b).keys) := by
  obtain ⟨current, spot, hfind, hforest, hclipboard, hexchange⟩ := hs.exists_of_edit h₁
  obtain rfl := Option.some.inj (ha.symm.trans hfind)
  have hs₁ := hexchange.consistent hs
  obtain ⟨current', spot', hfind', hforest', hclipboard', hexchange'⟩ := hs₁.exists_of_edit h₂
  -- the first edit has left the other node where it was
  obtain rfl := Option.some.inj ((hs.find?_put hs₁ hforest ha hb hab hba).symm.trans hfind')
  have hbmem : b.key ∈ Forest.keys s.forest := by
    by_contra hnot
    rw [Forest.find?_eq_none_iff.2 hnot] at hb
    contradiction
  refine ⟨hexchange'.consistent hs₁, hexchange.notMem_keys hbmem hab, ?_, ?_, ?_, ?_⟩
  · rw [hforest', hforest]
  · rw [hclipboard', hclipboard]
  · rw [hexchange'.reclaim, hexchange.reclaim]
  · intro hreclaim n
    rw [hexchange'.mem_slots, hexchange.mem_slots, hexchange.reclaim, hreclaim,
      Forest.keys_singleton, Forest.keys_singleton, Forest.keys_singleton, Forest.keys_singleton]
    simp [or_assoc]

/-- **Independent edits commute.** Two edited copies are of nodes neither of which lies in the
subtree of the other. If both can be merged one after the other in either order, the session is the
same in the end: its forest with all fields, children and styles in their order, the slots in use,
whether slots are given back or not, and the clipboard. -/
theorem edits_commute_of_reachable (hs : s.Reachable) {a b na nb : Node} {s₁ s₂ t₁ t₂ : Session}
    (ha : Forest.find? a.key s.forest = some na) (hb : Forest.find? b.key s.forest = some nb)
    (hab : b.key ∉ na.keys) (hba : a.key ∉ nb.keys)
    (h₁ : s.edit a = .ok (true, s₁)) (h₂ : s₁.edit b = .ok (true, s₂))
    (h₃ : s.edit b = .ok (true, t₁)) (h₄ : t₁.edit a = .ok (true, t₂)) :
    s₂.forest = t₂.forest ∧ s₂.slots = t₂.slots ∧ s₂.clipboard = t₂.clipboard ∧
      s₂.reclaim = t₂.reclaim := by
  have hcons := consistent_of_reachable hs
  obtain ⟨hs₂, hnew, hforest, hclipboard, hreclaim, hslots⟩ :=
    hcons.forest_edit_edit ha hb hab hba h₁ h₂
  obtain ⟨ht₂, hnew', hforest', hclipboard', hreclaim', hslots'⟩ :=
    hcons.forest_edit_edit hb ha hba hab h₃ h₄
  have hne : a.key ≠ b.key := by
    intro heq
    obtain ⟨-, -, hkey, -⟩ := Forest.exists_spot_of_find? ha
    exact hab (by simp [hkey, heq])
  have hsame : s₂.forest = t₂.forest := by
    rw [hforest, hforest', Forest.put_comm hne hnew hnew']
  refine ⟨hsame, ?_, hclipboard.trans hclipboard'.symm, hreclaim.trans hreclaim'.symm⟩
  cases hback : s.reclaim with
  | true =>
    -- the forest determines the slots
    exact (hs₂.slots_eq ht₂ hsame.symm (hreclaim.trans hback) (hreclaim'.trans hback)).symm
  | false =>
    -- no slot is given back, and both orders take the same ones
    refine Slots.ext_mem fun n => ?_
    rw [hslots hback, hslots' hback]
    tauto

/-- Two lists side by side: the first loses its item for one with a name that takes a number, the
second gets one more item in front and a style in another order. -/
theorem edits_commute_of_two_lists :
    let item (key : Key) : Node := .container "li" key
    let styled (names : List String) (node : Node) : Node :=
      names.foldl (fun node name => node.withStyle name (.text "red")) node
    let ul := (Node.container "ul" (.number 0)).withChildren [item (.number 1)]
    let ol := (styled ["color", "fill"] (.container "ol" (.number 2))).withChildren
      [item (.number 3)]
    let s : Session := { forest := [ul, ol], slots := .ofForest [ul, ol] }
    let a := (Node.container "ul" (.number 0)).withChildren [item (.name "n5")]
    let b := (styled ["fill", "color"] (.container "ol" (.number 2))).withChildren
      [item (.number 7), item (.number 3)]
    s.Reachable ∧ Forest.find? a.key s.forest = some ul ∧ Forest.find? b.key s.forest = some ol ∧
    b.key ∉ ul.keys ∧ a.key ∉ ol.keys ∧
    ∃ s₁ s₂ t₁ t₂, s.edit a = .ok (true, s₁) ∧ s₁.edit b = .ok (true, s₂) ∧
      s.edit b = .ok (true, t₁) ∧ t₁.edit a = .ok (true, t₂) ∧
      s₂.forest = t₂.forest ∧ s₂.slots = t₂.slots ∧ s₂.clipboard = t₂.clipboard ∧
      s₂.reclaim = t₂.reclaim := by
  intro item styled ul ol s a b
  have hofForest : ofForest s.forest true = .ok s := rfl
  have hs : s.Reachable := .ofForest hofForest
  have hab : b.key ∉ ul.keys := by decide
  have hba : a.key ∉ ol.keys := by decide
  refine ⟨hs, rfl, rfl, hab, hba, _, _, _, _, rfl, rfl, rfl, rfl, ?_⟩
  exact edits_commute_of_reachable hs rfl rfl hab hba rfl rfl rfl rfl

end Session

end PageTree
