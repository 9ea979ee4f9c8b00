import PageTree.Proofs.Markup.Owners
import PageTree.Proofs.Spot

/-! # What becomes of a page

A forest has a page unless a node of it cannot be written or, in classes mode, a class is generated
for two keys. Both are told from the nodes that are not below a self-closing element, a node before
its children (**`Markup.emitted`**): the fault of a forest is that of the first of them that has one
by itself (**`Forest.fault?_eq_findSome?`**), and without a fault the elements are those of them
that are no texts (**`Markup.elements_eq_filter_emitted`**). Main statement: `page_outcome`. -/

namespace PageTree

/-! ## Faults of single nodes -/

/-- What is wrong with a node by itself: an element has a blank tag, or a text owns children. -/
def Node.ownFault? (node : Node) : Option NodeFault :=
  match node.kind with
  | .text => if node.children.isEmpty then none else some (.textWithChildren node.key)
  | .single | .container =>
    if Text.isBlankText node.tag then some (.missingTag node.key) else none

/-- A node is an element with a blank tag or a text with children. -/
def Node.IsFaulty (node : Node) : Prop :=
  (node.kind ≠ .text ∧ Text.isBlankText node.tag = true) ∨
    (node.kind = .text ∧ node.children ≠ [])

/-- Nothing is wrong with a node by itself exactly when it is not faulty. -/
theorem Node.ownFault?_eq_none_iff {node : Node} : node.ownFault? = none ↔ ¬node.IsFaulty := by
  rw [Node.ownFault?, Node.IsFaulty]
  cases node.kind <;> simp

namespace Markup

/-- The nodes that are not below a self-closing element, a node before its children. -/
def emitted (forest : Forest) : List Node :=
  Forest.visited (fun node => node.kind != .single) forest

/-- The first tree is written from its root on, before the others. -/
theorem emitted_cons (node : Node) (forest : Forest) :
    emitted (node :: forest) =
      node :: ((if node.kind = .single then [] else emitted node.children) ++ emitted forest) := by
  rw [emitted, Forest.visited, Node.visited_eq, List.cons_append, emitted, emitted]
  cases node.kind <;> rfl

/-- Something holds of all nodes that are not below a self-closing element exactly when it holds of
the first node, of those below it, unless it is self-closing, and of those of the other nodes. -/
theorem forall_mem_emitted_cons {p : Node → Prop} {node : Node} {forest : Forest} :
    (∀ other ∈ emitted (node :: forest), p other) ↔
      p node ∧ (node.kind ≠ .single → ∀ other ∈ emitted node.children, p other) ∧
        ∀ other ∈ emitted forest, p other := by
  rw [emitted_cons]
  cases node.kind <;> simp [or_imp, forall_and]

/-- Elements are not below self-closing elements. -/
theorem elements_subset_emitted (forest : Forest) : elements forest ⊆ emitted forest := by
  induction forest using Forest.induction with
  | nil => exact List.Subset.refl _
  | cons node forest ihc ihf =>
    refine forall_mem_elements_cons.2 ⟨fun _ => ?_, fun hkind other hother => ?_, fun other h => ?_⟩
    · rw [emitted_cons]
      exact List.mem_cons_self
    · rw [emitted_cons, hkind, if_neg NodeKind.noConfusion]
      exact List.mem_cons_of_mem _ (List.mem_append_left _ (ihc hother))
    · rw [emitted_cons]
      exact List.mem_cons_of_mem _ (List.mem_append_right _ (ihf h))

end Markup

open Markup

/-! ## The first fault -/

/-- The fault of a node is its own one or, unless it is self-closing, one below it. -/
theorem Node.fault?_eq_or (node : Node) :
    node.fault? =
      node.ownFault?.or (if node.kind = .single then none else Forest.fault? node.children) := by
  rw [Node.fault?_eq, Node.ownFault?]
  cases node.kind with
  | text =>
    -- a text without children has nothing below it
    dsimp only
    cases hchildren : node.children with
    | nil => rfl
    | cons child children => rfl
  | single => simp
  | container =>
    dsimp only
    split <;> rfl

/-- **The fault of a forest** is that of the first node, among those not below a self-closing
element, that has one by itself. -/
theorem Forest.fault?_eq_findSome? (forest : Forest) :
    Forest.fault? forest = (emitted forest).findSome? Node.ownFault? := by
  induction forest using Forest.induction with
  | nil => rfl
  | cons node forest ihc ihf =>
    rw [Forest.fault?, Node.fault?_eq_or, emitted_cons, List.findSome?_cons, List.findSome?_append,
      ← ihf]
    cases node.ownFault? with
    | some fault => rfl
    | none =>
      rw [Option.none_or]
      split
      · rfl
      · rw [ihc]

/-- A forest has no fault exactly when none of the nodes written has one. -/
theorem Forest.fault?_eq_none_iff {forest : Forest} :
    Forest.fault? forest = none ↔ ∀ node ∈ emitted forest, ¬node.IsFaulty := by
  rw [Forest.fault?_eq_findSome?, List.findSome?_eq_none_iff]
  exact forall₂_congr fun _ _ => Node.ownFault?_eq_none_iff

namespace Markup

variable {forest : Forest}

/-- Without a fault, no text has anything below it, so the elements are all nodes that are not below
a self-closing element, texts apart. -/
theorem elements_eq_filter_emitted (h : Forest.fault? forest = none) :
    elements forest = (emitted forest).filter fun node => node.kind != .text := by
  induction forest using Forest.induction with
  | nil => rfl
  | cons node forest ihc ihf =>
    rw [Forest.fault?, Option.or_eq_none_iff, Node.fault?_eq] at h
    rw [elements_cons, emitted_cons, List.filter_cons, List.filter_append, ihf h.2]
    cases hkind : node.kind with
    | text =>
      rw [hkind] at h
      have hchildren : node.children = [] := by simpa using h.1
      rw [hchildren]
      rfl
    | single => rfl
    | container =>
      rw [hkind] at h
      have hbelow : Forest.fault? node.children = none := by
        have hnone := h.1
        dsimp only at hnone
        split at hnone
        · contradiction
        · exact hnone
      rw [ihc hbelow]
      rfl

/-- The elements without an explicit class, among the nodes that are not below a self-closing
element. -/
def emittedOwners (forest : Forest) : List Node :=
  (emitted forest).filter fun node => node.kind != .text && (explicitClass? node).isNone

/-- Where there is no fault, classes are generated for the same elements, whether they are searched
with their children or as they are written. -/
theorem generated_elements (h : Forest.fault? forest = none) :
    generated (elements forest) = emittedOwners forest := by
  rw [generated, elements_eq_filter_emitted h, List.filter_filter, emittedOwners]
  exact List.filter_congr fun node _ => Bool.and_comm ..

/-! ## Pages and errors -/

/-- Of the elements without an explicit class, two with different keys have one class. -/
def KeysClash (nodes : List Node) : Prop :=
  ∃ a ∈ nodes, ∃ b ∈ nodes, a.key ≠ b.key ∧ a.key.className = b.key.className

/-- Every class has one key exactly when no two keys clash. -/
theorem oneKeyPerClass_iff_not_keysClash {nodes : List Node} :
    OneKeyPerClass nodes ↔ ¬KeysClash nodes := by
  constructor
  · rintro honce ⟨a, ha, b, hb, hkey, hclass⟩
    exact hkey (honce a ha b hb hclass)
  · intro hclash a ha b hb hclass
    by_contra hkey
    exact hclash ⟨a, ha, b, hb, hkey, hclass⟩

/-- Without a fault, a page is there unless there is no style sheet for a clash. -/
theorem page_cases (options : Options) (hfault : Forest.fault? forest = none) :
    (¬(options.styleMode = .classes ∧ KeysClash (emittedOwners forest)) ∧
      ∃ text, page options forest = .ok text) ∨
    (options.styleMode = .classes ∧ KeysClash (emittedOwners forest)) ∧
      ∃ clash, IsClassClash (emittedOwners forest) clash ∧
        page options forest = .error (.classClash clash) := by
  cases hmode : options.styleMode with
  | inline =>
    refine .inl ⟨fun hclash => StyleMode.noConfusion hclash.1, ?_⟩
    have hsheet : styleSheet options forest = .ok "" := by rw [styleSheet, hmode]
    rw [page_eq_of_styleSheet_eq_ok hsheet, hfault]
    exact ⟨_, rfl⟩
  | classes =>
    -- where no node has a fault, the elements whose rules are collected are those that are written
    rcases rules_cases forest with ⟨honce, hrules⟩ | ⟨clash, hrules, hclash⟩
    · rw [generated_elements hfault, oneKeyPerClass_iff_not_keysClash] at honce
      refine .inl ⟨fun hclash => honce hclash.2, ?_⟩
      have hsheet : styleSheet options forest = .ok (sheetText options
          ((firstOfKeys (generated (elements forest))).filterMap ownRule?)) := by
        rw [styleSheet, hmode, hrules]
        rfl
      rw [page_eq_of_styleSheet_eq_ok hsheet, hfault]
      exact ⟨_, rfl⟩
    · rw [generated_elements hfault] at hclash
      have hkeys := mt oneKeyPerClass_iff_not_keysClash.2 hclash.not_oneKeyPerClass
      refine .inr ⟨⟨rfl, not_not.1 hkeys⟩, clash, hclash, ?_⟩
      rw [page, hfault, styleSheet, hmode, hrules]
      rfl

/-- **What becomes of a page.** A forest has no page for a fault exactly when a node that is not
below a self-closing element is an element with a blank tag or a text with children, and the fault
is that of the first such node. Otherwise it has none for a clash exactly when, in classes mode, two
of these elements without an explicit class have different keys with one class name; the second key
of the clash is then that of the first of them whose class is generated for another key before, and
the first key is that of the earliest one with the class. In all other cases it has a page. -/
theorem page_outcome (options : Options) (forest : Forest) :
    ((∃ fault, page options forest = .error (.invalidNode fault)) ↔
      ∃ node ∈ emitted forest, node.IsFaulty) ∧
    (∀ fault, page options forest = .error (.invalidNode fault) →
      ∃ before node after, emitted forest = before ++ node :: after ∧
        node.ownFault? = some fault ∧ ∀ other ∈ before, ¬other.IsFaulty) ∧
    ((∃ clash, page options forest = .error (.classClash clash)) ↔
      (∀ node ∈ emitted forest, ¬node.IsFaulty) ∧ options.styleMode = .classes ∧
        KeysClash (emittedOwners forest)) ∧
    (∀ clash, page options forest = .error (.classClash clash) →
      IsClassClash (emittedOwners forest) clash) ∧
    ((∃ text, page options forest = .ok text) ↔
      (∀ node ∈ emitted forest, ¬node.IsFaulty) ∧
        ¬(options.styleMode = .classes ∧ KeysClash (emittedOwners forest))) := by
  cases hfault : Forest.fault? forest with
  | some fault =>
    have hpage : page options forest = .error (.invalidNode fault) := by rw [page, hfault]
    obtain ⟨before, node, after, hsplit, hown, hbefore⟩ :=
      List.findSome?_eq_some_iff.1 (Forest.fault?_eq_findSome? forest ▸ hfault)
    have hfaulty : ∃ node ∈ emitted forest, node.IsFaulty := by
      refine ⟨node, hsplit ▸ by simp, ?_⟩
      by_contra hsound
      rw [Node.ownFault?_eq_none_iff.2 hsound] at hown
      contradiction
    have hnot : ¬∀ node ∈ emitted forest, ¬node.IsFaulty := by
      obtain ⟨node, hnode, hfaulty⟩ := hfaulty
      exact fun hsound => hsound node hnode hfaulty
    -- an error of one kind is none of the other kind, and no page
    rw [hpage]
    refine ⟨iff_of_true ⟨fault, rfl⟩ hfaulty, ?_, iff_of_false ?_ fun h => hnot h.1, ?_,
      iff_of_false ?_ fun h => hnot h.1⟩
    · rintro _ ⟨rfl⟩
      exact ⟨before, node, after, hsplit, hown,
        fun other hother => Node.ownFault?_eq_none_iff.1 (hbefore other hother)⟩
    · rintro ⟨_, ⟨⟩⟩
    · rintro _ ⟨⟩
    · rintro ⟨_, ⟨⟩⟩
  | none =>
    have hsound := Forest.fault?_eq_none_iff.1 hfault
    have hnot : ¬∃ node ∈ emitted forest, node.IsFaulty := by
      rintro ⟨node, hnode, hfaulty⟩
      exact hsound node hnode hfaulty
    rcases page_cases options hfault with
      ⟨hnone, text, hpage⟩ | ⟨hclash, clash, hfirst, hpage⟩
    · rw [hpage]
      refine ⟨iff_of_false ?_ hnot, ?_, iff_of_false ?_ fun h => hnone h.2, ?_,
        iff_of_true ⟨text, rfl⟩ ⟨hsound, hnone⟩⟩
      · rintro ⟨_, ⟨⟩⟩
      · rintro _ ⟨⟩
      · rintro ⟨_, ⟨⟩⟩
      · rintro _ ⟨⟩
    · rw [hpage]
      refine ⟨iff_of_false ?_ hnot, ?_, iff_of_true ⟨clash, rfl⟩ ⟨hsound, hclash⟩, ?_,
        iff_of_false ?_ fun h => h.2 hclash⟩
      · rintro ⟨_, ⟨⟩⟩
      · rintro _ ⟨⟩
      · rintro _ ⟨rfl⟩
        exact hfirst
      · rintro ⟨_, ⟨⟩⟩

end Markup

end PageTree
