import PageTree.Proofs.Entries
import PageTree.Proofs.Layer.Memory

/-! # What a renderer returns

A renderer remembers children by the numbers of shapes; **`Renderer.memory`** is the same by shapes.
What it builds is what is rendered from this memory (**`Renderer.buildAll_follows`**), since numbers
tell shapes apart and go on to mean the same when the table grows. Main statement:
`Renderer.rendered_of_run`, over all calls since it was made or cleared a renderer returns the nodes
of its layers but for the keys below them, which are those of the first layer of each shape. -/

namespace PageTree

open Layer ShapeTable

namespace Renderer

/-! ## The memory of a renderer -/

/-- Which children a renderer remembers of each shape. -/
def memory (r : Renderer) : Memory :=
  fun shape => (shape.number? r.shapes.levels).bind fun id => r.cache.lookup id

/-- Whether children are remembered for numbers of shapes only. -/
def Grounded (r : Renderer) : Prop :=
  ∀ id children, r.cache.lookup id = some children →
    ∃ shape : Shape, shape.number? r.shapes.levels = some id

variable {r : Renderer}

/-- What a renderer remembers of a shape that has a number is what the cache has under it. -/
theorem memory_eq_lookup (r : Renderer) {shape : Shape} {id : Nat}
    (h : shape.number? r.shapes.levels = some id) : r.memory shape = r.cache.lookup id := by
  rw [memory, h, Option.bind_some]

/-- Under the number that is remembered the new children are found. -/
theorem lookup_remember_self (r : Renderer) (id : Nat) (children : Forest) :
    (r.remember id children).cache.lookup id = some children :=
  Entries.lookup_put_self r.cache id children

/-- Under any other number nothing changes. -/
theorem lookup_remember_of_ne {id other : Nat} (h : other ≠ id) (children : Forest) :
    (r.remember id children).cache.lookup other = r.cache.lookup other :=
  Entries.lookup_put_of_ne children h

/-- Children that are remembered for the number of a shape are remembered of the shape. -/
theorem memory_remember {shape : Shape} {id : Nat} (h : shape.number? r.shapes.levels = some id)
    (children : Forest) :
    (r.remember id children).memory = r.memory.remember shape children := by
  funext other
  by_cases heq : other = shape
  · rw [heq, Memory.remember_self, memory_eq_lookup (r.remember id children) h,
      lookup_remember_self]
  · rw [Memory.remember_of_ne heq]
    cases hother : other.number? r.shapes.levels with
    | none =>
      have hafter : other.number? (r.remember id children).shapes.levels = none := hother
      rw [memory, memory, hafter, hother]
      rfl
    | some id' =>
      have hne : id' ≠ id := by
        rintro rfl
        exact heq (Shape.number?_inj hother h)
      rw [memory_eq_lookup r hother, memory_eq_lookup (r.remember id children) hother,
        lookup_remember_of_ne hne]

/-- The children of a shape that has a number may be remembered under it. -/
theorem Grounded.remember (hr : r.Grounded) {shape : Shape} {id : Nat}
    (h : shape.number? r.shapes.levels = some id) (children : Forest) :
    (r.remember id children).Grounded := by
  intro other known hknown
  by_cases heq : other = id
  · exact ⟨shape, heq ▸ h⟩
  · rw [lookup_remember_of_ne heq] at hknown
    exact hr other known hknown

/-- A larger table changes nothing of what is remembered. -/
theorem Grounded.enter (hr : r.Grounded) {shapes : ShapeTable}
    (hgrows : r.shapes.levels <+: shapes.levels) :
    { r with shapes := shapes }.Grounded ∧ { r with shapes := shapes }.memory = r.memory := by
  have hstays : ∀ {shape : Shape} {id : Nat}, shape.number? r.shapes.levels = some id →
      shape.number? shapes.levels = some id := Shape.number?_mono hgrows
  constructor
  · intro id known hknown
    obtain ⟨shape, hshape⟩ := hr id known hknown
    exact ⟨shape, hstays hshape⟩
  · funext shape
    cases hshape : shape.number? r.shapes.levels with
    | some id =>
      have hafter := memory_eq_lookup { r with shapes := shapes } (hstays hshape)
      exact hafter.trans (memory_eq_lookup r hshape).symm
    | none =>
      -- a number that is new now is none of those that something is remembered for
      have hnone : r.memory shape = none := by
        rw [memory, hshape]
        rfl
      rw [hnone, Option.eq_none_iff_forall_ne_some]
      intro known hknown
      obtain ⟨id, hid, hlookup⟩ := Option.bind_eq_some_iff.1 hknown
      obtain ⟨other, hother⟩ := hr id known hlookup
      rw [Shape.number?_inj hid (hstays hother), hother] at hshape
      contradiction

/-! ## Rendering -/

/-- Whether what a renderer returns and remembers is what is rendered from memory. -/
structure Follows {α : Type} (result : α × Renderer) (expected : α × Memory) : Prop where
  /-- What is returned is what is rendered. -/
  returned : result.1 = expected.1
  /-- What is remembered then is what memory has then. -/
  memory : result.2.memory = expected.2
  /-- Children are still remembered for numbers of shapes only. -/
  grounded : result.2.Grounded

/-- Layers are rendered from memory if the first one is, and the others from what is remembered
after it. -/
theorem Follows.cons {memory : Memory} {layer : Layer} {layers : List Layer}
    {first : Node × Renderer} {rest : Forest × Renderer} (h : Follows first (memory.render layer))
    (h' : Follows rest (first.2.memory.renderAll layers)) :
    Follows (first.1 :: rest.1, rest.2) (memory.renderAll (layer :: layers)) := by
  obtain ⟨hreturned, hmemory, hgrounded⟩ := h'
  rw [h.memory] at hreturned hmemory
  rw [Memory.renderAll]
  refine ⟨?_, hmemory, hgrounded⟩
  dsimp only
  rw [hreturned, h.returned]

/-- A layer is built by its kind: a leaf by itself, any other with the children in the cache, or
else with new ones that are cached from then on. -/
theorem build_eq (r : Renderer) (layer : Layer) (tree : ShapeTree) :
    r.build layer tree =
      if layer.leaf then (element layer.title layer.key layer.leaf, r)
      else
        match r.cache.lookup tree.id with
        | some known =>
          ({ element layer.title layer.key layer.leaf with children := known },
            { r with hits := r.hits + 1 })
        | none =>
          let below := { r with misses := r.misses + 1 }.buildAll layer.children tree.children
          ({ element layer.title layer.key layer.leaf with children := below.1 },
            below.2.remember tree.id below.1) := by
  cases layer; rfl

variable {layer : Layer} {tree : ShapeTree}

/-- A leaf is built by itself, and the renderer is left as it is. -/
theorem build_of_leaf (r : Renderer) (tree : ShapeTree) (hleaf : layer.leaf = true) :
    r.build layer tree = (element layer.title layer.key true, r) := by
  rw [build_eq, hleaf, if_pos rfl]

/-- A layer whose number is in the cache gets the children that are there, and this is a hit. -/
theorem build_of_lookup_eq_some {known : Forest} (hleaf : layer.leaf = false)
    (h : r.cache.lookup tree.id = some known) :
    r.build layer tree =
      ({ element layer.title layer.key false with children := known },
        { r with hits := r.hits + 1 }) := by
  rw [build_eq, hleaf, if_neg Bool.false_ne_true, h]

/-- A layer whose number is not in the cache gets new children, which are cached, and this is a
miss. -/
theorem build_of_lookup_eq_none (hleaf : layer.leaf = false)
    (h : r.cache.lookup tree.id = none) :
    r.build layer tree =
      let below := { r with misses := r.misses + 1 }.buildAll layer.children tree.children
      ({ element layer.title layer.key false with children := below.1 },
        below.2.remember tree.id below.1) := by
  rw [build_eq, hleaf, if_neg Bool.false_ne_true, h]

/-- Building leaves the table. -/
theorem shapes_buildAll (r : Renderer) (layers : List Layer) (trees : List ShapeTree) :
    (r.buildAll layers trees).2.shapes = r.shapes := by
  induction layers using Layer.induction generalizing r trees with
  | nil => rfl
  | cons layer layers ihc ihs =>
    cases trees with
    | nil => rfl
    | cons tree trees =>
      have hbuild : (r.build layer tree).2.shapes = r.shapes := by
        cases hleaf : layer.leaf with
        | true => rw [build_of_leaf r tree hleaf]
        | false =>
          cases hknown : r.cache.lookup tree.id with
          | some known => rw [build_of_lookup_eq_some hleaf hknown]
          | none =>
            rw [build_of_lookup_eq_none hleaf hknown]
            exact ihc { r with misses := r.misses + 1 } tree.children
      rw [buildAll]
      exact (ihs _ trees).trans hbuild

/-- Building a layer numbers no shapes. -/
theorem shapes_build (r : Renderer) (layer : Layer) (tree : ShapeTree) :
    (r.build layer tree).2.shapes = r.shapes :=
  shapes_buildAll r [layer] [tree]

/-- What is built for a layer is what is rendered from memory, if what is below it is. -/
theorem build_follows (hr : r.Grounded)
    (hnumber : layer.shape.number? r.shapes.levels = some tree.id)
    (hbelow : layer.leaf = false →
      Follows ({ r with misses := r.misses + 1 }.buildAll layer.children tree.children)
        (r.memory.renderAll layer.children)) :
    Follows (r.build layer tree) (r.memory.render layer) := by
  have hlookup := memory_eq_lookup r hnumber
  cases hleaf : layer.leaf with
  | true =>
    rw [build_of_leaf r tree hleaf, Memory.render_of_leaf _ hleaf]
    exact ⟨rfl, rfl, hr⟩
  | false =>
    cases hknown : r.cache.lookup tree.id with
    | some known =>
      rw [build_of_lookup_eq_some hleaf hknown,
        Memory.render_of_eq_some hleaf (hlookup.trans hknown)]
      exact ⟨rfl, rfl, hr⟩
    | none =>
      -- the table stays as it is while the layers below are built, so the number does too
      have hshapes := shapes_buildAll { r with misses := r.misses + 1 } layer.children tree.children
      obtain ⟨hreturned, hmemory, hgrounded⟩ := hbelow hleaf
      rw [build_of_lookup_eq_none hleaf hknown,
        Memory.render_of_eq_none hleaf (hlookup.trans hknown), ← hreturned, ← hmemory]
      generalize { r with misses := r.misses + 1 }.buildAll layer.children tree.children = below
        at hshapes hgrounded ⊢
      have hafter : layer.shape.number? below.2.shapes.levels = some tree.id := by
        rw [hshapes]
        exact hnumber
      exact ⟨rfl, memory_remember hafter below.1, hgrounded.remember hafter below.1⟩

/-- **What is built is what is rendered from memory.** -/
theorem buildAll_follows {layers : List Layer} {trees : List ShapeTree} (hr : r.Grounded)
    (htrees : NumbersAll r.shapes.levels layers trees) :
    Follows (r.buildAll layers trees) (r.memory.renderAll layers) := by
  induction layers using Layer.induction generalizing r trees with
  | nil => exact ⟨rfl, rfl, hr⟩
  | cons layer layers ihc ihs =>
    cases trees with
    | nil => exact htrees.elim
    | cons tree trees =>
      obtain ⟨hlayer, hlayers⟩ := htrees
      obtain ⟨hnumber, hbelow⟩ := numbers_iff.1 hlayer
      have hstart : { r with misses := r.misses + 1 }.Grounded := hr
      have hbuild := build_follows hr hnumber fun hleaf => ihc hstart (hbelow hleaf)
      have hrest : NumbersAll (r.build layer tree).2.shapes.levels layers trees := by
        rw [shapes_build]
        exact hlayers
      exact hbuild.cons (ihs hbuild.grounded hrest)

/-- Rendering a layer renders it from memory. -/
theorem render_follows (hr : r.Grounded) (layer : Layer) :
    Follows (r.render layer) (r.memory.render layer) := by
  obtain ⟨hgrows, hnumbers⟩ := enter_numbers r.shapes layer
  obtain ⟨hgrounded, hmemory⟩ := hr.enter hgrows
  obtain ⟨hreturned, hafter, hstill⟩ :=
    buildAll_follows hgrounded (numbersAll_singleton.2 hnumbers)
  rw [hmemory] at hreturned hafter
  exact ⟨(List.cons.inj hreturned).1, hafter, hstill⟩

/-- Rendering layers one after the other renders them from memory. -/
theorem renderAll_follows (hr : r.Grounded) (layers : List Layer) :
    Follows (r.renderAll layers) (r.memory.renderAll layers) := by
  induction layers generalizing r with
  | nil => exact ⟨rfl, rfl, hr⟩
  | cons layer layers ih =>
    have hrender := render_follows hr layer
    exact hrender.cons (ih hrender.grounded)

end Renderer

/-! ## Calls -/

/-- A call of a renderer. -/
inductive RenderCall where
  /-- Render a layer. -/
  | one (layer : Layer)
  /-- Render layers side by side. -/
  | all (layers : List Layer)

/-- The layers that a call is to render. -/
def RenderCall.layers : RenderCall → List Layer
  | .one layer => [layer]
  | .all layers => layers

namespace Renderer

/-- What a call returns, and the renderer after it. -/
def perform (r : Renderer) : RenderCall → Forest × Renderer
  | .one layer => ([(r.render layer).1], (r.render layer).2)
  | .all layers => r.renderAll layers

/-- What calls return one after the other, and the renderer after them. -/
def run (r : Renderer) : List RenderCall → List Forest × Renderer
  | [] => ([], r)
  | call :: calls =>
    let first := r.perform call
    let rest := first.2.run calls
    (first.1 :: rest.1, rest.2)

variable {r : Renderer}

/-- Whatever a call asks for, what it returns and leaves is what is rendered from memory. -/
theorem perform_follows (hr : r.Grounded) (call : RenderCall) :
    Follows (r.perform call) (r.memory.renderAll call.layers) := by
  cases call with
  | one layer => exact renderAll_follows hr [layer]
  | all layers => exact renderAll_follows hr layers

/-- What a call returns and what is remembered after it. -/
theorem perform_outcome (hr : r.Grounded) (hmemory : r.memory.Coherent) (call : RenderCall) :
    Memory.Outcome r.memory call.layers (r.perform call).1 (r.perform call).2.memory := by
  obtain ⟨hreturned, hafter, -⟩ := perform_follows hr call
  rw [hreturned, hafter]
  exact Memory.renderAll_outcome hmemory call.layers

/-- **What calls return and what is remembered after them.** -/
theorem run_outcome (hr : r.Grounded) (hmemory : r.memory.Coherent) (calls : List RenderCall) :
    Memory.Outcome r.memory (calls.flatMap RenderCall.layers) (r.run calls).1.flatten
        (r.run calls).2.memory ∧
      List.Forall₂ (fun call forest => (r.run calls).2.memory.Renders call.layers forest) calls
        (r.run calls).1 ∧
      (r.run calls).2.Grounded := by
  induction calls generalizing r with
  | nil => exact ⟨Memory.renderAll_outcome hmemory [], .nil, hr⟩
  | cons call calls ih =>
    have houtcome := perform_outcome hr hmemory call
    obtain ⟨hrest, hcalls, hend⟩ := ih (perform_follows hr call).grounded houtcome.coherent
    rw [run]
    refine ⟨houtcome.append hrest, .cons ?_ hcalls, hend⟩
    exact houtcome.renders.extends hrest.extends_memory

/-- What calls return depends on what is remembered only. -/
theorem run_eq_of_memory_eq {other : Renderer} (hr : r.Grounded) (hother : other.Grounded)
    (h : r.memory = other.memory) (calls : List RenderCall) :
    (r.run calls).1 = (other.run calls).1 := by
  induction calls generalizing r other with
  | nil => rfl
  | cons call calls ih =>
    have hfirst := perform_follows hr call
    have hfirst' := perform_follows hother call
    have hafter : (r.perform call).2.memory = (other.perform call).2.memory := by
      rw [hfirst.memory, hfirst'.memory, h]
    rw [run, run]
    dsimp only
    rw [ih hfirst.grounded hfirst'.grounded hafter, hfirst.returned, hfirst'.returned, h]

/-- A call that is made again returns the same. -/
theorem perform_perform (hr : r.Grounded) (hmemory : r.memory.Coherent) (call : RenderCall) :
    ((r.perform call).2.perform call).1 = (r.perform call).1 := by
  have hagain := perform_follows (perform_follows hr call).grounded call
  rw [hagain.returned, (perform_outcome hr hmemory call).renders.renderAll]

/-- A renderer that is new or was cleared remembers nothing. -/
theorem memory_of_fresh (h : r = {} ∨ ∃ old : Renderer, r = old.clear) :
    r.Grounded ∧ r.memory = fun _ => none := by
  have hcache : r.cache = [] := by
    rcases h with rfl | ⟨old, rfl⟩ <;> rfl
  constructor
  · intro id children hknown
    rw [hcache] at hknown
    contradiction
  · funext shape
    rw [memory, hcache]
    cases shape.number? r.shapes.levels <;> rfl

/-- A list with one item, in which a text is marked. -/
def markedItem (list item mark : UInt64) : Layer :=
  { title := "ul", key := .number list
    children := [{ title := "li", key := .number item
                   children := [{ title := "b", key := .number mark, leaf := true }] }] }

/-- The second list has its own key, and below it the keys of the first. -/
example :
    (({} : Renderer).run [.one (markedItem 1 2 3), .one (markedItem 4 5 6)]).1.map Forest.keys =
      [[.number 1, .number 2, .number 3], [.number 4, .number 2, .number 3]] := by
  decide

end Renderer

end PageTree
