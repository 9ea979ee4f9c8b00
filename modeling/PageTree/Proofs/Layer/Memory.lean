import Mathlib.Data.List.Forall2
import Mathlib.Logic.Function.Basic
import PageTree.Layer.Renderer
import PageTree.Proofs.Keyless
import PageTree.Proofs.Layer.ShapeNumber

/-! # Rendering from memory

A **`Memory`** says which children are remembered of each shape, and **`Memory.renderAll`** renders
layers from it, one after the other. A node fits a shape if it is its element and its children are
those that are remembered (**`Memory.Fits`**); a memory is coherent if what is remembered of a shape
fits the shapes below it. Main statement: `Memory.renderAll_outcome`, a coherent memory only grows
and stays coherent, what is rendered fits, and what is new in memory are the children that were
built for the first layer of a shape. -/

namespace PageTree

open Layer

/-! ## Layers and their nodes -/

namespace Layer

/-- The node of a layer is its element with the nodes of the layers below it; a leaf has none. -/
theorem toNode_eq (layer : Layer) :
    layer.toNode =
      { element layer.title layer.key layer.leaf with
        children := if layer.leaf then [] else toForest layer.children } := by
  cases layer; rfl

mutual

/-- The layers from a layer on down with the nodes they are rendered as, a layer before those below
it; what is below a leaf is not rendered. -/
def occurrences : Layer → Node → List (Layer × Node)
  | { title, key, leaf, children }, node =>
    ({ title, key, leaf, children }, node) ::
      if leaf then [] else occurrencesAll children node.children

/-- The same for layers that are rendered in order. -/
def occurrencesAll : List Layer → Forest → List (Layer × Node)
  | layer :: layers, node :: forest => occurrences layer node ++ occurrencesAll layers forest
  | _, _ => []

end

/-- A layer with its node comes first, then those below it; below a leaf there are none. -/
theorem occurrences_eq (layer : Layer) (node : Node) :
    occurrences layer node =
      (layer, node) :: if layer.leaf then [] else occurrencesAll layer.children node.children := by
  cases layer; rfl

/-- More layers are rendered behind the others. -/
theorem occurrencesAll_append {layers : List Layer} {forest : Forest}
    (hlength : layers.length = forest.length) (more : List Layer) (rest : Forest) :
    occurrencesAll (layers ++ more) (forest ++ rest) =
      occurrencesAll layers forest ++ occurrencesAll more rest := by
  induction layers generalizing forest with
  | nil =>
    obtain rfl := List.length_eq_zero_iff.1 hlength.symm
    rfl
  | cons layer layers ih =>
    cases forest with
    | nil => contradiction
    | cons node forest =>
      rw [List.cons_append, List.cons_append, occurrencesAll, occurrencesAll,
        ih (Nat.succ.inj hlength), List.append_assoc]

/-- The first layer of a shape was rendered with these children, and they were built for it: they
have the keys of the layers below it. -/
def IsFirst (pairs : List (Layer × Node)) (shape : Shape) (children : Forest) : Prop :=
  ∃ before layer node after, pairs = before ++ (layer, node) :: after ∧
    (∀ pair ∈ before, pair.1.shape ≠ shape) ∧ layer.shape = shape ∧ node.children = children ∧
    children.map Node.key = layer.children.map Layer.key

/-- What comes later does not change which layer of a shape is the first. -/
theorem IsFirst.append {pairs : List (Layer × Node)} {shape : Shape} {children : Forest}
    (h : IsFirst pairs shape children) (more : List (Layer × Node)) :
    IsFirst (pairs ++ more) shape children := by
  obtain ⟨before, layer, node, after, rfl, hbefore, hfirst⟩ := h
  exact ⟨before, layer, node, after ++ more, by simp, hbefore, hfirst⟩

/-- Layers of other shapes in front do not change which one of a shape is the first. -/
theorem IsFirst.append_left {pairs : List (Layer × Node)} {shape : Shape} {children : Forest}
    (h : IsFirst pairs shape children) {front : List (Layer × Node)}
    (hfront : ∀ pair ∈ front, pair.1.shape ≠ shape) : IsFirst (front ++ pairs) shape children := by
  obtain ⟨before, layer, node, after, rfl, hbefore, hfirst⟩ := h
  exact ⟨front ++ before, layer, node, after, by simp,
    List.forall_mem_append.2 ⟨hfront, hbefore⟩, hfirst⟩

/-- The shape of a layer below is smaller. -/
theorem sizeOf_shape_lt {layer child : Layer} (hleaf : layer.leaf = false)
    (hchild : child ∈ layer.children) : sizeOf child.shape < sizeOf layer.shape := by
  have hmem : child.shape ∈ shapes layer.children := by
    rw [shapes_eq]
    exact List.mem_map_of_mem hchild
  have hlt := List.sizeOf_lt_of_mem hmem
  rw [shape_of_branch hleaf, Shape.branch.sizeOf_spec]
  omega

end Layer

/-! ## Memory -/

/-- Which children are remembered of each shape. -/
abbrev Memory := Shape → Option Forest

namespace Memory

/-- Remembers the children of a shape. -/
def remember (memory : Memory) (shape : Shape) (children : Forest) : Memory :=
  Function.update memory shape (some children)

/-- What is remembered of a shape is found again. -/
theorem remember_self (memory : Memory) (shape : Shape) (children : Forest) :
    memory.remember shape children shape = some children :=
  Function.update_self ..

/-- Remembering one shape leaves what is remembered of another. -/
theorem remember_of_ne {memory : Memory} {shape other : Shape} (h : other ≠ shape)
    (children : Forest) : memory.remember shape children other = memory other :=
  Function.update_of_ne h ..

mutual

/-- Renders a layer: the children of a layer that is no leaf are those that are remembered of its
shape, and otherwise they are rendered and remembered. -/
def render (memory : Memory) : Layer → Node × Memory
  | { title, key, leaf, children } =>
    let node := element title key leaf
    if leaf then (node, memory)
    else
      match memory (.branch title (shapes children)) with
      | some known => ({ node with children := known }, memory)
      | none =>
        let rendered := renderAll memory children
        ({ node with children := rendered.1 },
          rendered.2.remember (.branch title (shapes children)) rendered.1)

/-- Renders layers in order. -/
def renderAll (memory : Memory) : List Layer → Forest × Memory
  | [] => ([], memory)
  | layer :: layers =>
    let first := render memory layer
    let rest := renderAll first.2 layers
    (first.1 :: rest.1, rest.2)

end

variable {memory after : Memory} {layer : Layer} {layers : List Layer} {node : Node}
  {forest : Forest}

/-- A layer is rendered by its kind: a leaf by itself, any other with the children that are
remembered of its shape, or else with new ones that are remembered from then on. -/
theorem render_eq (memory : Memory) (layer : Layer) :
    memory.render layer =
      if layer.leaf then (element layer.title layer.key layer.leaf, memory)
      else
        match memory (.branch layer.title (shapes layer.children)) with
        | some known =>
          ({ element layer.title layer.key layer.leaf with children := known }, memory)
        | none =>
          ({ element layer.title layer.key layer.leaf with
              children := (memory.renderAll layer.children).1 },
            (memory.renderAll layer.children).2.remember
              (.branch layer.title (shapes layer.children))
              (memory.renderAll layer.children).1) := by
  cases layer; rfl

/-- A leaf is rendered by itself, and nothing new is remembered. -/
theorem render_of_leaf (memory : Memory) (hleaf : layer.leaf = true) :
    memory.render layer = (element layer.title layer.key true, memory) := by
  rw [render_eq, hleaf, if_pos rfl]

/-- A layer of a known shape is rendered with the children that are remembered of it. -/
theorem render_of_eq_some {known : Forest} (hleaf : layer.leaf = false)
    (h : memory layer.shape = some known) :
    memory.render layer =
      ({ element layer.title layer.key false with children := known }, memory) := by
  rw [shape_of_branch hleaf] at h
  rw [render_eq, hleaf, if_neg Bool.false_ne_true, h]

/-- A layer of a new shape is rendered with new children, which are remembered. -/
theorem render_of_eq_none (hleaf : layer.leaf = false) (h : memory layer.shape = none) :
    memory.render layer =
      ({ element layer.title layer.key false with
          children := (memory.renderAll layer.children).1 },
        (memory.renderAll layer.children).2.remember layer.shape
          (memory.renderAll layer.children).1) := by
  rw [shape_of_branch hleaf] at h ⊢
  rw [render_eq, hleaf, if_neg Bool.false_ne_true, h]

/-- Rendering layers with smaller shapes leaves what is remembered of a shape. -/
theorem renderAll_of_lt {shape : Shape}
    (hlt : ∀ layer ∈ layers, sizeOf layer.shape < sizeOf shape) (memory : Memory) :
    (memory.renderAll layers).2 shape = memory shape := by
  induction layers using Layer.induction generalizing memory with
  | nil => rfl
  | cons layer layers ihc ihs =>
    obtain ⟨hlayer, hlayers⟩ := List.forall_mem_cons.1 hlt
    -- only what is below a layer is remembered with it, and this is smaller still
    have hrender : (memory.render layer).2 shape = memory shape := by
      cases hleaf : layer.leaf with
      | true => rw [render_of_leaf memory hleaf]
      | false =>
        cases hknown : memory layer.shape with
        | some known => rw [render_of_eq_some hleaf hknown]
        | none =>
          have hne : shape ≠ layer.shape := by
            rintro rfl
            exact absurd hlayer (Nat.lt_irrefl _)
          rw [render_of_eq_none hleaf hknown]
          dsimp only
          rw [remember_of_ne hne]
          exact ihc (fun child hchild => Nat.lt_trans (sizeOf_shape_lt hleaf hchild) hlayer) memory
    rw [renderAll]
    dsimp only
    rw [ihs hlayers, hrender]

/-! ## Fitting nodes -/

/-- Whether a node is what comes out for a layer of a shape, with some key: it is the element of the
shape, and has the children that are remembered of it. -/
def Fits (memory : Memory) : Shape → Node → Prop
  | .leaf title, node => node = element title node.key true
  | .branch title shapes, node =>
    node = { element title node.key false with children := node.children } ∧
      memory (.branch title shapes) = some node.children

/-- Whether one memory has everything that another has. -/
def Extends (after memory : Memory) : Prop :=
  ∀ shape children, memory shape = some children → after shape = some children

/-- Nothing is remembered of leaves, and what is remembered of another shape fits the shapes below
it. -/
structure Coherent (memory : Memory) : Prop where
  /-- Nothing is remembered of leaves. -/
  leaf : ∀ title, memory (.leaf title) = none
  /-- What is remembered of another shape fits the shapes below it. -/
  branch : ∀ title shapes children, memory (.branch title shapes) = some children →
    List.Forall₂ memory.Fits shapes children

/-- Nothing remembered is coherent. -/
theorem coherent_none : Coherent fun _ => none :=
  ⟨fun _ => rfl, nofun⟩

/-- A memory has everything that it has. -/
theorem Extends.refl (memory : Memory) : memory.Extends memory :=
  fun _ _ h => h

/-- What the last memory has of the second it has of the first. -/
theorem Extends.trans {last : Memory} (h : after.Extends memory) (h' : last.Extends after) :
    last.Extends memory :=
  fun shape children hknown => h' shape children (h shape children hknown)

/-- What fits goes on to fit. -/
theorem Extends.fits (h : after.Extends memory) {shape : Shape} (hfits : memory.Fits shape node) :
    after.Fits shape node := by
  cases shape with
  | leaf title => exact hfits
  | branch title shapes => exact ⟨hfits.1, h _ _ hfits.2⟩

/-- What fits a layer that is no leaf has the children that are remembered of its shape. -/
theorem Fits.children (h : memory.Fits layer.shape node) (hleaf : layer.leaf = false) :
    memory layer.shape = some node.children := by
  rw [shape_of_branch hleaf] at h ⊢
  exact h.2

/-- Rendering again what was rendered gives the same and leaves the memory. -/
theorem Fits.render (h : memory.Fits layer.shape node) (hkey : node.key = layer.key) :
    memory.render layer = (node, memory) := by
  cases hleaf : layer.leaf with
  | true =>
    rw [shape_of_leaf hleaf] at h
    rw [render_of_leaf memory hleaf, ← hkey, ← h]
  | false =>
    rw [render_of_eq_some hleaf (h.children hleaf)]
    rw [shape_of_branch hleaf] at h
    rw [← hkey, ← h.1]

/-- Nodes that layers are rendered as: each fits the shape of its layer and has its key. -/
def Renders (memory : Memory) (layers : List Layer) (forest : Forest) : Prop :=
  List.Forall₂ (fun layer node => memory.Fits layer.shape node ∧ node.key = layer.key) layers forest

/-- The nodes that layers are rendered as fit their shapes. -/
theorem Renders.fits (h : memory.Renders layers forest) :
    List.Forall₂ (fun layer node => memory.Fits layer.shape node) layers forest :=
  List.Forall₂.imp (fun _ _ hnode => hnode.1) h

/-- The nodes that layers are rendered as have their keys. -/
theorem Renders.map_key (h : memory.Renders layers forest) :
    forest.map Node.key = layers.map Layer.key := by
  induction h with
  | nil => rfl
  | cons head _ ih => rw [List.map_cons, List.map_cons, head.2, ih]

/-- Layers that were rendered come from memory when they are rendered again. -/
theorem Renders.renderAll (h : memory.Renders layers forest) :
    memory.renderAll layers = (forest, memory) := by
  induction h with
  | nil => rfl
  | cons head _ ih =>
    rw [Memory.renderAll, head.1.render head.2]
    dsimp only
    rw [ih]

/-- What nodes layers are rendered as stays so with more in memory. -/
theorem Renders.extends (h : memory.Renders layers forest) (hafter : after.Extends memory) :
    after.Renders layers forest :=
  List.Forall₂.imp (fun _ _ hnode => ⟨hafter.fits hnode.1, hnode.2⟩) h

/-- What fits a layer that is no leaf has children that fit the layers below it. -/
theorem Coherent.fits_children (hmemory : memory.Coherent) (h : memory.Fits layer.shape node)
    (hleaf : layer.leaf = false) :
    List.Forall₂ (fun child node => memory.Fits child.shape node) layer.children node.children := by
  have hknown := h.children hleaf
  rw [shape_of_branch hleaf] at hknown
  have hchildren := hmemory.branch _ _ _ hknown
  rwa [shapes_eq, List.forall₂_map_left_iff] at hchildren

/-- From a coherent memory, what fits layers fits them all the way down. -/
theorem Coherent.fits_of_mem_occurrencesAll (hmemory : memory.Coherent)
    (h : List.Forall₂ (fun layer node => memory.Fits layer.shape node) layers forest) :
    ∀ pair ∈ occurrencesAll layers forest, memory.Fits pair.1.shape pair.2 := by
  -- the children of a node are those that are remembered of its shape, which fit what is below it
  induction layers using Layer.induction generalizing forest with
  | nil =>
    cases h
    exact List.forall_mem_nil _
  | cons layer layers ihc ihs =>
    cases h with
    | cons head tail =>
      rw [occurrencesAll, occurrences_eq, List.forall_mem_append, List.forall_mem_cons]
      refine ⟨⟨head, ?_⟩, ihs tail⟩
      cases hleaf : layer.leaf with
      | true => exact List.forall_mem_nil _
      | false => exact ihc (hmemory.fits_children head hleaf)

/-- From a coherent memory, what fits layers are the nodes that they stand for, up to keys. -/
theorem Coherent.keyless_eq (hmemory : memory.Coherent)
    (h : List.Forall₂ (fun layer node => memory.Fits layer.shape node) layers forest) :
    Forest.keyless forest = Forest.keyless (toForest layers) := by
  induction layers using Layer.induction generalizing forest with
  | nil =>
    cases h
    rfl
  | cons layer layers ihc ihs =>
    cases h with
    | @cons _ node _ forest head tail =>
      rw [toForest, Forest.keyless, Forest.keyless, ihs tail, Node.keyless_eq, Node.keyless_eq,
        toNode_eq]
      congr 1
      cases hleaf : layer.leaf with
      | true =>
        rw [shape_of_leaf hleaf] at head
        rw [head]
        rfl
      | false =>
        rw [ihc (hmemory.fits_children head hleaf)]
        rw [shape_of_branch hleaf] at head
        rw [head.1]
        rfl

/-- But for its keys, a node that fits the shape of a layer is that of the layer. -/
theorem Coherent.keyless_eq_toNode (hmemory : memory.Coherent)
    (h : memory.Fits layer.shape node) : node.keyless = layer.toNode.keyless :=
  (List.cons.inj (hmemory.keyless_eq (.cons h .nil) : [node.keyless] = [layer.toNode.keyless])).1

/-! ## Rendering -/

/-- How layers are rendered from a memory and what is remembered after that: nothing is forgotten,
the memory is coherent, the nodes fit and have the keys of their layers, and what is new was built
for the first layer of its shape. -/
structure Outcome (memory : Memory) (layers : List Layer) (forest : Forest) (after : Memory) :
    Prop where
  /-- Nothing is forgotten. -/
  extends_memory : after.Extends memory
  /-- The memory is coherent. -/
  coherent : after.Coherent
  /-- The nodes fit the shapes of the layers and have their keys. -/
  renders : after.Renders layers forest
  /-- What is new was built for the first layer of its shape. -/
  first : ∀ shape children, memory shape = none → after shape = some children →
    IsFirst (occurrencesAll layers forest) shape children

/-- Layers rendered in two turns are rendered as in one. -/
theorem Outcome.append {more : List Layer} {rest : Forest} {last : Memory}
    (h : Outcome memory layers forest after) (h' : Outcome after more rest last) :
    Outcome memory (layers ++ more) (forest ++ rest) last where
  extends_memory := h.extends_memory.trans h'.extends_memory
  coherent := h'.coherent
  renders := List.rel_append (h.renders.extends h'.extends_memory) h'.renders
  first := by
    intro shape children hnew hlast
    rw [occurrencesAll_append h.renders.length_eq]
    cases hafter : after shape with
    | some known =>
      have hknown := h'.extends_memory shape known hafter
      obtain rfl := Option.some.inj (hlast.symm.trans hknown)
      exact (h.first shape children hnew hafter).append _
    | none =>
      -- of a shape that is met everything is remembered, so the first layers do not have it
      refine (h'.first shape children hafter hlast).append_left ?_
      rintro ⟨layer, node⟩ hmem rfl
      have hfits := h.coherent.fits_of_mem_occurrencesAll h.renders.fits _ hmem
      cases hleaf : layer.leaf with
      | true =>
        have hnone := h'.coherent.leaf layer.title
        rw [shape_of_leaf hleaf] at hlast
        rw [hnone] at hlast
        contradiction
      | false =>
        have hsome := hfits.children hleaf
        rw [hafter] at hsome
        contradiction

/-- A node that fits and has the key of its layer can be taken from memory. -/
theorem outcome_of_fits (hmemory : memory.Coherent) (hfits : memory.Fits layer.shape node)
    (hkey : node.key = layer.key) : Outcome memory [layer] [node] memory where
  extends_memory := .refl memory
  coherent := hmemory
  renders := .cons ⟨hfits, hkey⟩ .nil
  first := by
    intro shape children hnew hafter
    rw [hnew] at hafter
    contradiction

/-- Remembering the children of a new shape forgets nothing. -/
theorem extends_remember {shape : Shape} (hnew : memory shape = none) (children : Forest) :
    (memory.remember shape children).Extends memory := by
  intro other known hknown
  have hne : other ≠ shape := by
    rintro rfl
    rw [hnew] at hknown
    contradiction
  rw [remember_of_ne hne, hknown]

/-- Children that fit the shapes below a new shape can be remembered. -/
theorem Coherent.remember (hmemory : memory.Coherent) {title : String} {shapes : List Shape}
    {children : Forest} (hnew : memory (.branch title shapes) = none)
    (hfits : List.Forall₂ memory.Fits shapes children) :
    (memory.remember (.branch title shapes) children).Coherent where
  leaf := by
    intro other
    have hne : Shape.leaf other ≠ .branch title shapes := nofun
    rw [remember_of_ne hne, hmemory.leaf]
  branch := by
    intro title' shapes' known hknown
    have hextends := extends_remember hnew children
    by_cases heq : Shape.branch title' shapes' = .branch title shapes
    · obtain ⟨rfl, rfl⟩ := Shape.branch.inj heq
      rw [remember_self] at hknown
      obtain rfl := Option.some.inj hknown
      exact hfits.imp fun _ _ hnode => hextends.fits hnode
    · rw [remember_of_ne heq] at hknown
      exact (hmemory.branch _ _ _ hknown).imp fun _ _ hnode => hextends.fits hnode

/-- The children of a layer with a new shape are built for it and remembered. -/
theorem outcome_of_built {built : Forest} (hleaf : layer.leaf = false)
    (hbelow : Outcome memory layer.children built after) (hnew : after layer.shape = none) :
    Outcome memory [layer] [{ element layer.title layer.key false with children := built }]
      (after.remember layer.shape built) := by
  have hshape := shape_of_branch hleaf
  have hself := remember_self after layer.shape built
  have hchildren : List.Forall₂ after.Fits (shapes layer.children) built := by
    rw [shapes_eq, List.forall₂_map_left_iff]
    exact hbelow.renders.fits
  refine ⟨hbelow.extends_memory.trans (extends_remember hnew built), ?_, .cons ⟨?_, rfl⟩ .nil, ?_⟩
  · rw [hshape] at hnew ⊢
    exact hbelow.coherent.remember hnew hchildren
  · rw [hshape] at hself ⊢
    exact ⟨rfl, hself⟩
  · intro shape children hunknown hknown
    rw [occurrencesAll, occurrences_eq, hleaf, if_neg Bool.false_ne_true]
    refine IsFirst.append ?_ _
    -- the layer is the first of its own shape; of another shape it is some layer below
    by_cases heq : shape = layer.shape
    · rw [heq, hself] at hknown
      obtain rfl := Option.some.inj hknown
      exact ⟨[], layer, _, _, rfl, List.forall_mem_nil _, heq.symm, rfl, hbelow.renders.map_key⟩
    · rw [remember_of_ne heq] at hknown
      have hfirst := hbelow.first shape children hunknown hknown
      exact hfirst.append_left (List.forall_mem_singleton.2 (Ne.symm heq))

/-- What rendering a layer does, if what is below it is rendered so. -/
theorem render_outcome (hmemory : memory.Coherent)
    (hbelow : Outcome memory layer.children (memory.renderAll layer.children).1
      (memory.renderAll layer.children).2) :
    Outcome memory [layer] [(memory.render layer).1] (memory.render layer).2 := by
  cases hleaf : layer.leaf with
  | true =>
    have hfits : memory.Fits layer.shape (element layer.title layer.key true) := by
      rw [shape_of_leaf hleaf]
      rfl
    rw [render_of_leaf memory hleaf]
    exact outcome_of_fits hmemory hfits rfl
  | false =>
    cases hknown : memory layer.shape with
    | some known =>
      have hfits : memory.Fits layer.shape
          { element layer.title layer.key false with children := known } := by
        rw [shape_of_branch hleaf] at hknown ⊢
        exact ⟨rfl, hknown⟩
      rw [render_of_eq_some hleaf hknown]
      exact outcome_of_fits hmemory hfits rfl
    | none =>
      -- the layers below have smaller shapes, so the shape of the layer is still new after them
      have hnew : (memory.renderAll layer.children).2 layer.shape = none := by
        rw [renderAll_of_lt fun child hchild => sizeOf_shape_lt hleaf hchild, hknown]
      rw [render_of_eq_none hleaf hknown]
      exact outcome_of_built hleaf hbelow hnew

/-- **What rendering layers does.** -/
theorem renderAll_outcome (hmemory : memory.Coherent) (layers : List Layer) :
    Outcome memory layers (memory.renderAll layers).1 (memory.renderAll layers).2 := by
  -- each layer is rendered from a memory that the layers before it have left coherent
  induction layers using Layer.induction generalizing memory with
  | nil =>
    refine ⟨.refl memory, hmemory, .nil, fun shape children hnew hafter => ?_⟩
    have hsome : memory shape = some children := hafter
    rw [hnew] at hsome
    contradiction
  | cons layer layers ihc ihs =>
    have hfirst := render_outcome hmemory (ihc hmemory)
    exact hfirst.append (ihs hfirst.coherent)

end Memory

end PageTree
