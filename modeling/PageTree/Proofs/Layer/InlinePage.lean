import PageTree.Proofs.Layer.Rendering
import PageTree.Proofs.Layer.ShapeCount
import PageTree.Proofs.Markup.MergedPage

/-! # Inline pages of rendered layers

In inline mode markup shows no keys: forests that are the same without them have the same markup,
and the same faults but for the keys that these name (**`Forest.page_eq_of_keyless_eq`**). What a
renderer returns is what its layers stand for but for keys, whatever calls came before and however
often it was cleared (**`Renderer.Reachable`**), so what it remembers does not show. Main statement:
`Renderer.inline_page_of_reachable`. -/

namespace PageTree

open Layer Markup

/-! ## Markup without keys -/

/-- A fault with the key that it names forgotten. -/
def NodeFault.keyless : NodeFault → NodeFault
  | .missingTag _ => .missingTag default
  | .textWithChildren _ => .textWithChildren default

namespace Forest

variable {options : Options} {forest others : Forest}

/-- A forest without its keys is empty exactly when the forest is. -/
@[simp] theorem isEmpty_keyless (forest : Forest) :
    (Forest.keyless forest).isEmpty = forest.isEmpty := by
  cases forest <;> rfl

/-- Without keys a forest has the same first fault, which then names no key. -/
theorem fault?_keyless (forest : Forest) :
    Forest.fault? (Forest.keyless forest) = (Forest.fault? forest).map NodeFault.keyless := by
  induction forest using Forest.induction with
  | nil => rfl
  | cons node forest ihc ihf =>
    have hnode : node.keyless.fault? = node.fault?.map NodeFault.keyless := by
      rw [Node.fault?_eq, Node.fault?_eq, Node.keyless_eq]
      simp only [isEmpty_keyless, ihc]
      cases node.kind with
      | text => dsimp only; split <;> rfl
      | single => dsimp only; split <;> rfl
      | container => dsimp only; split <;> rfl
    rw [Forest.keyless, Forest.fault?, Forest.fault?, hnode, ihf]
    cases node.fault? <;> rfl

/-- In inline mode nothing of an opening tag comes from the key or the children. -/
theorem openingTag_keyless (hmode : options.styleMode = .inline) (node : Node) :
    openingTag options node.keyless = openingTag options node := by
  have hexplicit : explicitClass? node.keyless = explicitClass? node := by
    rw [Node.keyless_eq]
    rfl
  have hclass : class? options node.keyless = class? options node := by
    rw [class?, class?, hmode, hexplicit]
    cases explicitClass? node <;> rfl
  have hstyle : styleValue? options node.keyless = styleValue? options node := by
    rw [Node.keyless_eq]
    rfl
  rw [openingTag, openingTag, attributes, attributes, hclass, hstyle, Node.keyless_eq]

/-- In inline mode a forest has the same markup without keys. -/
theorem forestText_keyless (hmode : options.styleMode = .inline) (forest : Forest) (depth : Nat) :
    forestText options depth (Forest.keyless forest) = forestText options depth forest := by
  induction forest using Forest.induction generalizing depth with
  | nil => rfl
  | cons node forest ihc ihf =>
    have hnode : nodeText options depth node.keyless = nodeText options depth node := by
      rw [nodeText_eq, nodeText_eq, openingTag_keyless hmode, Node.keyless_eq]
      simp only [isEmpty_keyless, ihc]
    rw [Forest.keyless, forestText_cons, forestText_cons, hnode, ihf]

/-- A forest with a fault has no page. -/
theorem page_eq_of_fault? {fault : NodeFault} (h : Forest.fault? forest = some fault)
    (options : Options) : page options forest = .error (.invalidNode fault) := by
  rw [page, h]

/-- **In inline mode keys do not show.** Forests that are the same without keys have the same page
or the same fault, but for the key that it names. -/
theorem page_eq_of_keyless_eq (hmode : options.styleMode = .inline)
    (h : Forest.keyless forest = Forest.keyless others) :
    (Forest.fault? forest).map NodeFault.keyless = (Forest.fault? others).map NodeFault.keyless ∧
      ∀ text, page options forest = .ok text ↔ page options others = .ok text := by
  have hfault : (Forest.fault? forest).map NodeFault.keyless =
      (Forest.fault? others).map NodeFault.keyless := by
    rw [← fault?_keyless, ← fault?_keyless, h]
  refine ⟨hfault, fun text => ?_⟩
  cases hforest : Forest.fault? forest with
  | none =>
    have hothers : Forest.fault? others = none := by simpa [hforest] using hfault.symm
    rw [page_eq_of_inline hforest hmode, page_eq_of_inline hothers hmode,
      ← forestText_keyless hmode, h, forestText_keyless hmode]
  | some fault =>
    obtain ⟨fault', hothers⟩ : ∃ fault', Forest.fault? others = some fault' := by
      rw [hforest] at hfault
      obtain ⟨fault', hothers, -⟩ := Option.map_eq_some_iff.1 hfault.symm
      exact ⟨fault', hothers⟩
    rw [page_eq_of_fault? hforest, page_eq_of_fault? hothers]
    exact iff_of_false nofun nofun

end Forest

/-! ## Blank titles -/

/-- Layers stand for nodes that can be written as long as no title is blank; a layer with a blank
title is an element without a tag. What is below a leaf stands for nothing. -/
theorem Layer.fault?_toForest (layers : List Layer) :
    Forest.fault? (toForest layers) =
      ((partsAll layers).find? fun layer => Text.isBlankText layer.title).map
        fun layer => .missingTag layer.key := by
  induction layers using Layer.induction with
  | nil => rfl
  | cons layer layers ihc ihs =>
    -- no layer is rendered as a text, so a blank tag is the only fault that a node can have
    have hlayer : layer.toNode.fault? =
        if Text.isBlankText layer.title then some (.missingTag layer.key)
        else if layer.leaf then none else Forest.fault? (toForest layer.children) := by
      rw [Node.fault?_eq, toNode_eq]
      simp only [element, kind]
      cases layer.leaf with
      | true => cases voidElements.contains layer.title <;> rfl
      | false => rfl
    rw [toForest, Forest.fault?, hlayer, ihs, ihc, partsAll, parts_eq, List.cons_append,
      List.find?_cons]
    cases Text.isBlankText layer.title with
    | true => rfl
    | false =>
      cases layer.leaf with
      | true => rfl
      | false =>
        simp only [List.find?_append, Option.map_or, Bool.false_eq_true, if_false]

namespace Renderer

variable {r : Renderer}

/-! ## Renderers in use -/

/-- The renderers that calls lead to from a new one, which may be cleared in between. -/
inductive Reachable : Renderer → Prop where
  /-- A new renderer. -/
  | new : Reachable {}
  /-- The renderer after one more call. -/
  | perform {r : Renderer} (call : RenderCall) : Reachable r → Reachable (r.perform call).2
  /-- The renderer after it was cleared. -/
  | clear {r : Renderer} : Reachable r → Reachable r.clear

/-- What a renderer remembers is coherent, whatever calls came before. -/
theorem Reachable.coherent (hr : r.Reachable) : r.Grounded ∧ r.memory.Coherent := by
  -- a renderer that remembers nothing is so
  have hfresh : ∀ {r : Renderer}, (r = {} ∨ ∃ old : Renderer, r = old.clear) →
      r.Grounded ∧ r.memory.Coherent := by
    intro r h
    obtain ⟨hgrounded, hempty⟩ := memory_of_fresh h
    refine ⟨hgrounded, ?_⟩
    rw [hempty]
    exact Memory.coherent_none
  induction hr with
  | new => exact hfresh (.inl rfl)
  | perform call _ ih =>
    exact ⟨(perform_follows ih.1 call).grounded, (perform_outcome ih.1 ih.2 call).coherent⟩
  | clear _ _ => exact hfresh (.inr ⟨_, rfl⟩)

/-- What a call returns is what its layers stand for, but for keys. -/
theorem Reachable.keyless_perform (hr : r.Reachable) (call : RenderCall) :
    Forest.keyless (r.perform call).1 = Forest.keyless (toForest call.layers) := by
  obtain ⟨hgrounded, hcoherent⟩ := hr.coherent
  have houtcome := perform_outcome hgrounded hcoherent call
  exact houtcome.coherent.keyless_eq houtcome.renders.fits

/-- **What a renderer remembers does not show in inline markup.** Whatever calls came before and
however often the renderer was cleared, in either dialect: what a call returns has the same page as
what its layers stand for; both have one exactly when no title of a layer that is rendered is blank,
and otherwise both fail for a missing tag. -/
theorem inline_page_of_reachable (hr : r.Reachable) (call : RenderCall) {options : Options}
    (hmode : options.styleMode = .inline) :
    let rendered := page options (r.perform call).1
    let plain := page options (toForest call.layers)
    (∀ text, rendered = .ok text ↔ plain = .ok text) ∧
    ((∃ text, plain = .ok text) ↔
      ∀ layer ∈ partsAll call.layers, Text.isBlankText layer.title = false) ∧
    ((∃ layer ∈ partsAll call.layers, Text.isBlankText layer.title = true) →
      ∃ key key', rendered = .error (.invalidNode (.missingTag key)) ∧
        plain = .error (.invalidNode (.missingTag key'))) := by
  intro rendered plain
  -- without keys, what a call returns is what its layers stand for
  obtain ⟨hfault, htext⟩ := Forest.page_eq_of_keyless_eq hmode (hr.keyless_perform call)
  have hblank := Layer.fault?_toForest call.layers
  refine ⟨htext, ?_⟩
  -- the first blank title decides for both
  cases hfirst : (partsAll call.layers).find? fun layer => Text.isBlankText layer.title with
  | none =>
    rw [hfirst, Option.map_none] at hblank
    have htitles : ∀ layer ∈ partsAll call.layers, Text.isBlankText layer.title = false := by
      simpa using hfirst
    refine ⟨iff_of_true ⟨_, Forest.page_eq_of_inline hblank hmode⟩ htitles, ?_⟩
    rintro ⟨layer, hlayer, htitle⟩
    rw [htitles layer hlayer] at htitle
    contradiction
  | some first =>
    rw [hfirst, Option.map_some] at hblank
    have hplain : plain = .error (.invalidNode (.missingTag first.key)) :=
      Forest.page_eq_of_fault? hblank options
    rw [hblank, Option.map_some] at hfault
    obtain ⟨fault, hfound, hsame⟩ := Option.map_eq_some_iff.1 hfault
    refine ⟨iff_of_false ?_ ?_, fun _ => ?_⟩
    · rintro ⟨text, hok⟩
      rw [hplain] at hok
      contradiction
    · intro htitles
      have htitle := List.find?_some hfirst
      rw [htitles first (List.mem_of_find?_eq_some hfirst)] at htitle
      contradiction
    · -- the fault found first is the same one but for the key
      cases fault with
      | missingTag key => exact ⟨key, first.key, Forest.page_eq_of_fault? hfound options, hplain⟩
      | textWithChildren key => contradiction

/-- Two lists of the same shape, with a cleared memory before the first of them: the second has the
children of the first, and its markup in JSX is its own. -/
theorem inline_page_of_marked_items :
    let start := (({} : Renderer).perform (.one (markedItem 7 8 9))).2.clear
    let r := (start.perform (.one (markedItem 1 2 3))).2
    let call := RenderCall.all [markedItem 4 5 6]
    let options : Options := { dialect := .jsx }
    let rendered := page options (r.perform call).1
    let plain := page options (toForest call.layers)
    r.Reachable ∧ options.styleMode = .inline ∧
    (∀ text, rendered = .ok text ↔ plain = .ok text) ∧
    ((∃ text, plain = .ok text) ↔
      ∀ layer ∈ partsAll call.layers, Text.isBlankText layer.title = false) ∧
    ((∃ layer ∈ partsAll call.layers, Text.isBlankText layer.title = true) →
      ∃ key key', rendered = .error (.invalidNode (.missingTag key)) ∧
        plain = .error (.invalidNode (.missingTag key'))) := by
  intro start r call options rendered plain
  have hr : r.Reachable := .perform _ (.clear (.perform _ .new))
  exact ⟨hr, rfl, inline_page_of_reachable hr call rfl⟩

end Renderer

end PageTree
