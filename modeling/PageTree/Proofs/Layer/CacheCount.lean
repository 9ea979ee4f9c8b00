import Mathlib.Data.List.DropRight
import PageTree.Proofs.Layer.Rendering
import PageTree.Proofs.Layer.ShapeCount

/-! # How much a renderer remembers

Building adds to what is remembered and counts every addition as a miss (**`Renderer.Adds`**): a
shape is not met again below itself, so nothing is remembered of it yet when its children have been
built. After rendering, children are remembered of the shapes of the parts that are no leaves, and
of no others (**`Renderer.memory_renderAll_ne_none_iff`**), also where a whole layer came from
memory, since everything below it had been rendered before then. Main statement:
`Renderer.counts_after`, for every sequence of calls and clearings. -/

namespace PageTree

open Layer ShapeTable

/-- The parts of layers that are no leaves. -/
def Layer.branches (layers : List Layer) : List Layer :=
  (partsAll layers).filter fun layer => !layer.leaf

/-- The branches of layers are those of their parts that are no leaves. -/
theorem Layer.mem_branches {layers : List Layer} {layer : Layer} :
    layer ∈ branches layers ↔ layer ∈ partsAll layers ∧ layer.leaf = false := by
  rw [branches, List.mem_filter, Bool.not_eq_true']

namespace Renderer

/-! ## What building adds -/

/-- How a renderer changes while it is not cleared: what is new in memory comes in front, nothing is
remembered anew for a number that it knows, and there is one miss for each thing that is new. -/
structure Adds (r after : Renderer) : Prop where
  /-- What was remembered stays where it was. -/
  suffix : r.cache <:+ after.cache
  /-- What was remembered for a number is so still. -/
  keeps : ∀ id known, r.cache.lookup id = some known → after.cache.lookup id = some known
  /-- Each number has one entry. -/
  nodup : (r.cache.map Prod.fst).Nodup → (after.cache.map Prod.fst).Nodup
  /-- There are as many misses as new entries. -/
  misses : after.misses + r.cache.length = r.misses + after.cache.length

variable {r after last : Renderer} {layer : Layer} {tree : ShapeTree}

/-- A renderer adds nothing to itself. -/
theorem Adds.refl (r : Renderer) : r.Adds r :=
  ⟨List.suffix_rfl, fun _ _ h => h, id, rfl⟩

/-- What a renderer adds in two turns it adds in one. -/
theorem Adds.trans (h : r.Adds after) (h' : after.Adds last) : r.Adds last where
  suffix := h.suffix.trans h'.suffix
  keeps id known hknown := h'.keeps id known (h.keeps id known hknown)
  nodup hr := h'.nodup (h.nodup hr)
  misses := by
    have hfirst := h.misses
    have hsecond := h'.misses
    omega

/-- What is remembered for a new number comes in front. -/
theorem remember_of_new {id : Nat} (hnew : r.cache.lookup id = none) (children : Forest) :
    r.remember id children = { r with cache := (id, children) :: r.cache } := by
  have hne : ∀ entry ∈ r.cache, (entry.1 != id) = true := by
    intro entry hentry
    have hother := List.lookup_eq_none_iff.1 hnew entry hentry
    rwa [bne_comm]
  rw [remember, List.filter_eq_self.2 hne]

/-- A miss adds what is built below, and then the children that were built. -/
theorem Adds.remember {id : Nat} {children : Forest}
    (h : { r with misses := r.misses + 1 }.Adds after) (hnew : after.cache.lookup id = none) :
    r.Adds (after.remember id children) := by
  rw [remember_of_new hnew]
  refine ⟨h.suffix.trans (List.suffix_cons _ _), fun other known hknown => ?_, fun hr => ?_, ?_⟩
  · have hstill := h.keeps other known hknown
    have hne : other ≠ id := by
      rintro rfl
      rw [hnew] at hstill
      contradiction
    rw [List.lookup_cons, beq_false_of_ne hne]
    exact hstill
  · refine List.nodup_cons.2 ⟨fun hid => ?_, h.nodup hr⟩
    obtain ⟨entry, hentry, rfl⟩ := List.mem_map.1 hid
    exact bne_iff_ne.1 (List.lookup_eq_none_iff.1 hnew entry hentry) rfl
  · have hmisses := h.misses
    simp only [List.length_cons] at hmisses ⊢
    omega

/-- When the children of a layer have been built, nothing is remembered of its shape that was not
before: the shapes below it are smaller. -/
theorem lookup_buildAll_children (hr : r.Grounded) (hleaf : layer.leaf = false)
    (hnumbers : Numbers r.shapes.levels layer tree) :
    (r.buildAll layer.children tree.children).2.cache.lookup tree.id = r.cache.lookup tree.id := by
  obtain ⟨hnumber, hbelow⟩ := numbers_iff.1 hnumbers
  have hafter : layer.shape.number?
      (r.buildAll layer.children tree.children).2.shapes.levels = some tree.id := by
    rw [shapes_buildAll]
    exact hnumber
  rw [← memory_eq_lookup _ hafter, ← memory_eq_lookup _ hnumber,
    (buildAll_follows hr (hbelow hleaf)).memory]
  exact Memory.renderAll_of_lt (fun child hchild => sizeOf_shape_lt hleaf hchild) r.memory

/-- **Building adds to what is remembered.** -/
theorem buildAll_adds {layers : List Layer} {trees : List ShapeTree} (hr : r.Grounded)
    (htrees : NumbersAll r.shapes.levels layers trees) : r.Adds (r.buildAll layers trees).2 := by
  induction layers using Layer.induction generalizing r trees with
  | nil => exact .refl r
  | cons layer layers ihc ihs =>
    cases trees with
    | nil => exact htrees.elim
    | cons tree trees =>
      obtain ⟨hlayer, hlayers⟩ := htrees
      -- only a layer of a new shape adds anything: first what is new below it, then its children
      have hbuild : r.Adds (r.build layer tree).2 := by
        cases hleaf : layer.leaf with
        | true =>
          rw [build_of_leaf r tree hleaf]
          exact .refl r
        | false =>
          cases hknown : r.cache.lookup tree.id with
          | some known =>
            rw [build_of_lookup_eq_some hleaf hknown]
            exact ⟨List.suffix_rfl, fun _ _ h => h, id, rfl⟩
          | none =>
            have hmissed : { r with misses := r.misses + 1 }.Grounded := hr
            rw [build_of_lookup_eq_none hleaf hknown]
            refine (ihc hmissed ((numbers_iff.1 hlayer).2 hleaf)).remember ?_
            rw [lookup_buildAll_children hmissed hleaf hlayer]
            exact hknown
      have hgrounded : (r.build layer tree).2.Grounded :=
        (buildAll_follows hr (numbersAll_singleton.2 hlayer)).grounded
      have hrest : NumbersAll (r.build layer tree).2.shapes.levels layers trees := by
        rw [shapes_build]
        exact hlayers
      exact hbuild.trans (ihs hgrounded hrest)

/-- Rendering a layer adds to what is remembered. -/
theorem render_adds (hr : r.Grounded) (layer : Layer) : r.Adds (r.render layer).2 := by
  obtain ⟨hgrows, hnumbers⟩ := enter_numbers r.shapes layer
  have hadds := buildAll_adds (hr.enter hgrows).1 (numbersAll_singleton.2 hnumbers)
  exact ⟨hadds.suffix, hadds.keeps, hadds.nodup, hadds.misses⟩

/-- **Rendering adds to what is remembered.** -/
theorem renderAll_adds (hr : r.Grounded) (layers : List Layer) :
    r.Adds (r.renderAll layers).2 := by
  induction layers generalizing r with
  | nil => exact .refl r
  | cons layer layers ih =>
    exact (render_adds hr layer).trans (ih (render_follows hr layer).grounded)

/-! ## What is remembered -/

/-- More layers are rendered by the renderer that the first ones leave. -/
theorem renderAll_append (r : Renderer) (layers more : List Layer) :
    (r.renderAll (layers ++ more)).2 = ((r.renderAll layers).2.renderAll more).2 := by
  induction layers generalizing r with
  | nil => rfl
  | cons layer layers ih => exact ih (r.render layer).2

/-- The table of a renderer is the one that its layers are entered into. -/
theorem shapes_renderAll (r : Renderer) (layers : List Layer) :
    (r.renderAll layers).2.shapes = (r.shapes.enterAll layers).2 := by
  induction layers generalizing r with
  | nil => rfl
  | cons layer layers ih =>
    have hrender : (r.render layer).2.shapes = (r.shapes.enter layer).2 := shapes_build _ _ _
    rw [Renderer.renderAll, ShapeTable.enterAll]
    dsimp only
    rw [ih, hrender]

/-- What fits layers was rendered for their parts. -/
theorem map_fst_occurrencesAll {memory : Memory} (hmemory : memory.Coherent) {layers : List Layer}
    {forest : Forest}
    (h : List.Forall₂ (fun layer node => memory.Fits layer.shape node) layers forest) :
    (occurrencesAll layers forest).map Prod.fst = partsAll layers := by
  induction layers using Layer.induction generalizing forest with
  | nil =>
    cases h
    rfl
  | cons layer layers ihc ihs =>
    cases h with
    | cons head tail =>
      rw [occurrencesAll, occurrences_eq, partsAll, parts_eq, List.map_append, List.map_cons,
        ihs tail]
      cases hleaf : layer.leaf with
      | true => rfl
      | false =>
        rw [if_neg Bool.false_ne_true, if_neg Bool.false_ne_true,
          ihc (hmemory.fits_children head hleaf)]

/-- **What is remembered after rendering**, if nothing was before: children of the shapes of all
parts that are no leaves, and of no others. -/
theorem memory_renderAll_ne_none_iff (hr : r.Grounded) (hempty : r.memory = fun _ => none)
    {layers : List Layer} {shape : Shape} :
    (r.renderAll layers).2.memory shape ≠ none ↔ shape ∈ (branches layers).map Layer.shape := by
  have hcoherent : r.memory.Coherent := by
    rw [hempty]
    exact Memory.coherent_none
  have houtcome := Memory.renderAll_outcome hcoherent layers
  -- the parts of the layers are those that something was rendered for
  have hparts := map_fst_occurrencesAll houtcome.coherent houtcome.renders.fits
  rw [(renderAll_follows hr layers).memory, Option.ne_none_iff_exists', List.mem_map]
  simp only [mem_branches, ← hparts, List.mem_map]
  constructor
  · -- what is new in memory was built for a layer of its shape, and nothing is built for leaves
    rintro ⟨children, hknown⟩
    have hnew : r.memory shape = none := by rw [hempty]
    obtain ⟨before, layer, node, rest, hpairs, -, rfl, -⟩ :=
      houtcome.first shape children hnew hknown
    refine ⟨layer, ⟨⟨(layer, node), ?_, rfl⟩, ?_⟩, rfl⟩
    · rw [hpairs]
      exact List.mem_append_right _ List.mem_cons_self
    · by_contra hleaf
      rw [shape_of_leaf (Bool.eq_true_of_not_eq_false hleaf), houtcome.coherent.leaf] at hknown
      contradiction
  · -- what came from memory fits all the way down, so all that is below it is remembered too
    rintro ⟨_, ⟨⟨⟨layer, node⟩, hpair, rfl⟩, hleaf⟩, rfl⟩
    have hfits := houtcome.coherent.fits_of_mem_occurrencesAll houtcome.renders.fits _ hpair
    exact ⟨node.children, hfits.children hleaf⟩

/-- A renderer has an entry for each shape that it remembers children of. -/
theorem length_cache_eq_card (hr : r.Grounded) (hnodup : (r.cache.map Prod.fst).Nodup)
    {shapes : List Shape} (hshapes : ∀ shape, r.memory shape ≠ none ↔ shape ∈ shapes) :
    r.cache.length = shapes.toFinset.card := by
  have hmem : ∀ id, id ∈ r.cache.map Prod.fst ↔ ∃ known, r.cache.lookup id = some known := by
    intro id
    rw [← Option.isSome_iff_exists, List.lookup_isSome_iff, List.mem_map]
    exact exists_congr fun entry => and_congr_right fun _ => by rw [beq_iff_eq, eq_comm]
  have hfound : ∀ shape ∈ shapes,
      ∃ id ∈ r.cache.map Prod.fst, shape.number? r.shapes.levels = some id := by
    intro shape hshape
    obtain ⟨known, hknown⟩ := Option.ne_none_iff_exists'.1 ((hshapes shape).2 hshape)
    obtain ⟨id, hid, hlookup⟩ := Option.bind_eq_some_iff.1 hknown
    exact ⟨id, (hmem id).2 ⟨known, hlookup⟩, hid⟩
  have hcovers : ∀ id ∈ r.cache.map Prod.fst,
      ∃ shape ∈ shapes, shape.number? r.shapes.levels = some id := by
    intro id hid
    obtain ⟨known, hlookup⟩ := (hmem id).1 hid
    obtain ⟨shape, hshape⟩ := hr id known hlookup
    refine ⟨shape, (hshapes shape).1 ?_, hshape⟩
    rw [memory_eq_lookup r hshape, hlookup]
    exact Option.some_ne_none known
  rw [card_eq_of_numbers hfound hcovers, List.toFinset_card_of_nodup hnodup, List.length_map]

/-- A table that was empty has a level for each shape of the parts entered. -/
theorem size_enterAll (layers : List Layer) :
    (({} : ShapeTable).enterAll layers).2.size =
      ((partsAll layers).map Layer.shape).toFinset.card := by
  have hnothing : Covers ({} : ShapeTable).levels [] :=
    fun id hid => absurd hid (Nat.not_lt_zero id)
  obtain ⟨-, hnumbers⟩ := enterAll_numbers {} layers
  obtain ⟨hparts, hgiven⟩ := hnumbers.numberedAll
  refine (hnothing.enterAll layers).card_eq fun shape hshape => ?_
  obtain ⟨layer, hlayer, rfl⟩ := List.mem_map.1 hshape
  rw [← hparts] at hlayer
  obtain ⟨pair, hpair, rfl⟩ := List.mem_map.1 hlayer
  exact ⟨pair.2, hgiven pair hpair⟩

end Renderer

/-! ## Calls and clearings -/

/-- What can be done with a renderer. -/
inductive RenderStep where
  /-- Make a call. -/
  | render (call : RenderCall)
  /-- Clear it. -/
  | clear

namespace RenderStep

/-- Whether a step clears the renderer. -/
def isClear : RenderStep → Bool
  | .render _ => false
  | .clear => true

/-- The layers that a step is to render. -/
def layers : RenderStep → List Layer
  | .render call => call.layers
  | .clear => []

/-- The steps up to the last clearing. -/
def upToClear (steps : List RenderStep) : List RenderStep :=
  steps.rdropWhile fun step => !step.isClear

/-- The steps since the last clearing. -/
def sinceClear (steps : List RenderStep) : List RenderStep :=
  steps.rtakeWhile fun step => !step.isClear

end RenderStep

namespace Renderer

open RenderStep

/-- A renderer after a step. -/
def step (r : Renderer) : RenderStep → Renderer
  | .render call => (r.perform call).2
  | .clear => r.clear

/-- A renderer after steps. -/
def after (r : Renderer) (steps : List RenderStep) : Renderer :=
  steps.foldl step r

variable {r : Renderer}

/-- Steps that do not clear render their layers. -/
theorem after_eq_renderAll {steps : List RenderStep} (h : ∀ step ∈ steps, step.isClear = false)
    (r : Renderer) : r.after steps = (r.renderAll (steps.flatMap RenderStep.layers)).2 := by
  induction steps generalizing r with
  | nil => rfl
  | cons step steps ih =>
    obtain ⟨hstep, hsteps⟩ := List.forall_mem_cons.1 h
    rw [List.flatMap_cons, renderAll_append, ← ih hsteps]
    cases step with
    | clear => contradiction
    | render call => cases call <;> rfl

/-- The steps up to the last clearing leave a renderer that is new or was cleared. -/
theorem after_upToClear (steps : List RenderStep) :
    ({} : Renderer).after (upToClear steps) = {} ∨
      ∃ old : Renderer, ({} : Renderer).after (upToClear steps) = old.clear := by
  cases hsteps : upToClear steps using List.reverseRecOn with
  | nil => exact .inl rfl
  | append_singleton before last =>
    have hne : upToClear steps ≠ [] := by
      rw [hsteps]
      exact List.append_ne_nil_of_right_ne_nil _ (List.cons_ne_nil _ _)
    have hend : (upToClear steps).getLast hne = last := by simp [hsteps]
    have hlast : ¬(!((upToClear steps).getLast hne).isClear) = true :=
      List.rdropWhile_last_not _ steps hne
    rw [hend] at hlast
    -- the last of the steps that are left is one that clears
    cases last with
    | render call => exact absurd rfl hlast
    | clear => exact .inr ⟨({} : Renderer).after before, List.foldl_concat ..⟩

/-- The state after steps is what the layers since the last clearing are rendered to. -/
theorem after_eq (steps : List RenderStep) :
    ({} : Renderer).after steps = ((({} : Renderer).after (upToClear steps)).renderAll
      ((sinceClear steps).flatMap RenderStep.layers)).2 := by
  have hcalls : ∀ step ∈ sinceClear steps, step.isClear = false := by
    intro step hstep
    have hnot : (!step.isClear) = true :=
      List.mem_rtakeWhile_imp (p := fun step : RenderStep => !step.isClear) hstep
    rwa [Bool.not_eq_true'] at hnot
  rw [← after_eq_renderAll hcalls, after, after, after, ← List.foldl_append, upToClear, sinceClear,
    List.rdropWhile_append_rtakeWhile]

/-- **How much a renderer remembers**, after any sequence of calls and clearings. There are as many
entries in memory, no two of them for one number, as different shapes among the parts of the layers
given since the last clearing that are no leaves, and there has been one miss for each entry since
then. The table has as many shapes as there are different ones among all parts. Calls after that
leave the entries where they are and add others in front, and what was found for a number is found
for it then. -/
theorem counts_after (steps : List RenderStep) :
    let start := ({} : Renderer).after (upToClear steps)
    let stop := ({} : Renderer).after steps
    let given := (sinceClear steps).flatMap RenderStep.layers
    stop.cache.length = ((branches given).map shape).toFinset.card ∧
    (stop.cache.map Prod.fst).Nodup ∧
    stop.misses = start.misses + stop.cache.length ∧
    stop.shapes.size = ((partsAll given).map shape).toFinset.card ∧
    ∀ calls : List RenderCall,
      let later := stop.after (calls.map RenderStep.render)
      stop.cache <:+ later.cache ∧
      ∀ id known, stop.cache.lookup id = some known → later.cache.lookup id = some known := by
  intro start stop given
  have hfresh : start = {} ∨ ∃ old : Renderer, start = old.clear := after_upToClear steps
  obtain ⟨hgrounded, hempty⟩ := memory_of_fresh hfresh
  have hstop : stop = (start.renderAll given).2 := after_eq steps
  have hstill : stop.Grounded := hstop ▸ (renderAll_follows hgrounded given).grounded
  have hadds : start.Adds stop := hstop ▸ renderAll_adds hgrounded given
  -- the counts start over at the last clearing, where nothing is cached
  have hstart : start.cache = [] ∧ start.shapes = {} := by
    rcases hfresh with heq | ⟨old, heq⟩ <;> rw [heq] <;> exact ⟨rfl, rfl⟩
  have hnodup : (stop.cache.map Prod.fst).Nodup := by
    refine hadds.nodup ?_
    rw [hstart.1]
    exact List.nodup_nil
  refine ⟨length_cache_eq_card hstill hnodup fun shape => ?_, hnodup, ?_, ?_, fun calls => ?_⟩
  · rw [hstop]
    exact memory_renderAll_ne_none_iff hgrounded hempty
  · have hmisses := hadds.misses
    rw [hstart.1] at hmisses
    exact hmisses
  · rw [hstop, shapes_renderAll, hstart.2]
    exact size_enterAll given
  · -- calls do not clear, so all that comes later only adds
    have hcalls : ∀ step ∈ calls.map RenderStep.render, step.isClear = false :=
      List.forall_mem_map.2 fun _ _ => rfl
    dsimp only
    rw [after_eq_renderAll hcalls]
    have hlater := renderAll_adds hstill ((calls.map RenderStep.render).flatMap RenderStep.layers)
    exact ⟨hlater.suffix, hlater.keeps⟩

/-- Clearing keeps the counts: the second list misses twice again, and the third one comes from
memory. -/
example :
    let stop := ({} : Renderer).after
      [.render (.one (markedItem 1 2 3)), .clear,
        .render (.all [markedItem 4 5 6, markedItem 7 8 9])]
    stop.cache.length = 2 ∧ stop.misses = 4 ∧ stop.hits = 1 ∧ stop.shapes.size = 3 := by
  decide

end Renderer

end PageTree
