import Mathlib.Data.Finset.Card
import PageTree.Proofs.Layer.ShapeNumber

/-! # Counting shapes

What a shape table tells over many calls. A layer is made up of **`Layer.parts`**, itself and the
layers below it that belong to its shape, and a call gives a number to each of them
(**`Layer.numbered`**) or to the layer only. The shapes entered so far have all the numbers that
there are (**`ShapeTable.Covers`**), so counting the ones is counting the others. Main statement:
`ShapeTable.numbers_of_fresh`. -/

namespace PageTree

/-! ## The parts of a layer -/

namespace Layer

mutual

/-- The layers that belong to the shape of a layer: the layer and, unless it is a leaf, those below
it. -/
def parts : Layer → List Layer
  | { title, key, leaf, children } =>
    { title, key, leaf, children } :: if leaf then [] else partsAll children

/-- The same for layers in order. -/
def partsAll : List Layer → List Layer
  | [] => []
  | layer :: layers => layer.parts ++ partsAll layers

end

mutual

/-- The parts of a layer with the numbers that a tree has in their places. -/
def numbered : Layer → ShapeTree → List (Layer × Nat)
  | { title, key, leaf, children }, tree =>
    ({ title, key, leaf, children }, tree.id) ::
      if leaf then [] else numberedAll children tree.children

/-- The same for layers in order. -/
def numberedAll : List Layer → List ShapeTree → List (Layer × Nat)
  | layer :: layers, tree :: trees => layer.numbered tree ++ numberedAll layers trees
  | _, _ => []

end

/-- A layer is the first of its parts; a leaf has no other. -/
theorem parts_eq (layer : Layer) :
    layer.parts = layer :: if layer.leaf then [] else partsAll layer.children := by
  cases layer; rfl

/-- A layer has the number of the tree; below a leaf nothing is numbered. -/
theorem numbered_eq (layer : Layer) (tree : ShapeTree) :
    layer.numbered tree =
      (layer, tree.id) :: if layer.leaf then [] else numberedAll layer.children tree.children := by
  cases layer; rfl

/-- A layer is a part of itself. -/
theorem mem_parts_self (layer : Layer) : layer ∈ layer.parts := by
  rw [parts_eq]
  exact List.mem_cons_self

/-- Two layers have one shape when they have one title, both or neither are leaves, and, if not, the
layers below them have the same shapes one by one. -/
theorem shape_eq_iff {layer other : Layer} :
    layer.shape = other.shape ↔ layer.title = other.title ∧ layer.leaf = other.leaf ∧
      (layer.leaf = false → layer.children.map shape = other.children.map shape) := by
  cases hleaf : layer.leaf with
  | true =>
    rw [shape_of_leaf hleaf]
    cases hother : other.leaf with
    | true => simp [shape_of_leaf hother]
    | false => simp [shape_of_branch hother]
  | false =>
    rw [shape_of_branch hleaf]
    cases hother : other.leaf with
    | true => simp [shape_of_leaf hother]
    | false => simp [shape_of_branch hother, shapes_eq]

end Layer

namespace ShapeTable

open Layer

variable {levels : List ShapeLevel} {shapes others : List Shape} {layer : Layer}
  {layers : List Layer} {trees : List ShapeTree} {table : ShapeTable}

/-- Trees that hold the numbers of the shapes of layers have one for each part of them. -/
theorem NumbersAll.numberedAll (h : NumbersAll levels layers trees) :
    (numberedAll layers trees).map Prod.fst = partsAll layers ∧
      ∀ pair ∈ Layer.numberedAll layers trees, pair.1.shape.number? levels = some pair.2 := by
  induction layers using Layer.induction generalizing trees with
  | nil =>
    cases trees with
    | nil => exact ⟨rfl, List.forall_mem_nil _⟩
    | cons tree trees => exact h.elim
  | cons layer layers ihc ihs =>
    cases trees with
    | nil => exact h.elim
    | cons tree trees =>
      obtain ⟨hlayer, hlayers⟩ := h
      obtain ⟨hnumber, hbelow⟩ := numbers_iff.1 hlayer
      obtain ⟨hparts, hnumbers⟩ := ihs hlayers
      -- a tree goes as deep as its layer does, so the parts are met in step
      rw [Layer.numberedAll, partsAll, List.map_append, hparts, numbered_eq, parts_eq,
        List.map_cons, List.cons_append, List.cons_append, List.cons_append, List.forall_mem_cons,
        List.forall_mem_append]
      cases hleaf : layer.leaf with
      | true => exact ⟨rfl, hnumber, List.forall_mem_nil _, hnumbers⟩
      | false =>
        obtain ⟨hpartsBelow, hnumbersBelow⟩ := ihc (hbelow hleaf)
        refine ⟨?_, hnumber, hnumbersBelow, hnumbers⟩
        rw [← hpartsBelow]
        rfl

/-! ## Shapes and numbers one to one -/

/-- Every number there is belongs to one of some shapes. -/
def Covers (levels : List ShapeLevel) (shapes : List Shape) : Prop :=
  ∀ id < levels.length, ∃ shape ∈ shapes, shape.number? levels = some id

/-- The number of a shape is less than the number of levels. -/
theorem lt_of_number?_eq_some {shape : Shape} {id : Nat} (h : shape.number? levels = some id) :
    id < levels.length := by
  obtain ⟨ids, -, hlevel⟩ := Shape.number?_eq_some_iff.1 h
  exact (List.idxOf?_eq_some_iff.1 hlevel).1

/-- There are as many different shapes as numbers, if each shape has one of the numbers and each of
the numbers belongs to one of the shapes. -/
theorem card_eq_of_numbers {ids : List Nat}
    (hfound : ∀ shape ∈ shapes, ∃ id ∈ ids, shape.number? levels = some id)
    (hcovers : ∀ id ∈ ids, ∃ shape ∈ shapes, shape.number? levels = some id) :
    shapes.toFinset.card = ids.toFinset.card := by
  have hinj : Set.InjOn (Shape.number? levels) shapes.toFinset := by
    intro shape hshape other hother heq
    obtain ⟨id, -, hid⟩ := hfound shape (List.mem_toFinset.1 hshape)
    exact Shape.number?_inj hid (heq.symm.trans hid)
  have himage : shapes.toFinset.image (Shape.number? levels) = ids.toFinset.image some := by
    ext number
    simp only [Finset.mem_image, List.mem_toFinset]
    constructor
    · rintro ⟨shape, hshape, rfl⟩
      obtain ⟨id, hid, hnumber⟩ := hfound shape hshape
      exact ⟨id, hid, hnumber.symm⟩
    · rintro ⟨id, hid, rfl⟩
      exact hcovers id hid
  rw [← Finset.card_image_of_injOn hinj, himage,
    Finset.card_image_of_injective _ (Option.some_injective Nat)]

/-- Where shapes have numbers, and there are no others, there are as many levels as different
shapes. -/
theorem Covers.card_eq (h : Covers levels shapes)
    (hnumbers : ∀ shape ∈ shapes, ∃ id, shape.number? levels = some id) :
    levels.length = shapes.toFinset.card := by
  have hcard : shapes.toFinset.card = (List.range levels.length).toFinset.card := by
    refine card_eq_of_numbers (fun shape hshape => ?_) fun id hid => h id (List.mem_range.1 hid)
    obtain ⟨id, hid⟩ := hnumbers shape hshape
    exact ⟨id, List.mem_range.2 (lt_of_number?_eq_some hid), hid⟩
  rw [hcard, List.toFinset_card_of_nodup List.nodup_range, List.length_range]

/-- If numbering a level adds it, it is the level of a shape, which then has the new number. -/
theorem Covers.number (h : Covers table.levels shapes) {level : ShapeLevel} {shape : Shape}
    (hsubset : shapes ⊆ others) (hshape : shape ∈ others)
    (hnumber : shape.number? (table.number level).2.levels = some (table.number level).1) :
    Covers (table.number level).2.levels others := by
  intro id hlt
  by_cases hold : id < table.levels.length
  · obtain ⟨known, hknown, hid⟩ := h id hold
    exact ⟨known, hsubset hknown, Shape.number?_mono (number_numbers table level).1 hid⟩
  · -- a number that was not there before is that of the level
    refine ⟨shape, hshape, ?_⟩
    rw [hnumber, Option.some.injEq]
    rw [ShapeTable.number] at hlt ⊢
    cases hindex : table.levels.idxOf? level with
    | some known =>
      rw [hindex] at hlt
      exact absurd hlt hold
    | none =>
      rw [hindex] at hlt
      have hlast : id < table.levels.length + 1 := by simpa using hlt
      show table.levels.length = id
      omega

/-! ## Entering layers -/

/-- Entering layers covers the numbers of their parts. -/
theorem Covers.enterAll (h : Covers table.levels shapes) (layers : List Layer) :
    Covers (table.enterAll layers).2.levels (shapes ++ (partsAll layers).map shape) := by
  induction layers using Layer.induction generalizing table shapes with
  | nil =>
    rw [partsAll, List.map_nil, List.append_nil]
    exact h
  | cons layer layers ihc ihs =>
    -- first what is below the layer, then the layer itself, then the other layers
    have henter : Covers (table.enter layer).2.levels (shapes ++ layer.parts.map shape) := by
      have hself : layer.shape ∈ shapes ++ layer.parts.map shape :=
        List.mem_append_right _ (List.mem_map_of_mem (mem_parts_self layer))
      have hnumber := (numbers_iff.1 (enter_numbers table layer).2).1
      rw [enter_eq] at hnumber ⊢
      cases hleaf : layer.leaf with
      | true =>
        rw [hleaf] at hnumber
        exact h.number (List.subset_append_left _ _) hself hnumber
      | false =>
        rw [hleaf] at hnumber
        refine (ihc h).number ?_ hself hnumber
        rw [parts_eq, hleaf, List.map_cons]
        exact List.append_subset.2 ⟨List.subset_append_left _ _,
          List.Subset.trans (List.subset_cons_self _ _) (List.subset_append_right _ _)⟩
    have hall := ihs henter
    rw [List.append_assoc, ← List.map_append] at hall
    exact hall

/-- Numbering a level counts it. -/
theorem entered_number (table : ShapeTable) (level : ShapeLevel) :
    (table.number level).2.entered = table.entered + 1 := by
  rw [ShapeTable.number]
  split <;> rfl

/-- Entering layers counts their parts. -/
theorem entered_enterAll (table : ShapeTable) (layers : List Layer) :
    (table.enterAll layers).2.entered = table.entered + (partsAll layers).length := by
  induction layers using Layer.induction generalizing table with
  | nil => rfl
  | cons layer layers ihc ihs =>
    have henter : (table.enter layer).2.entered = table.entered + layer.parts.length := by
      rw [enter_eq, parts_eq]
      cases layer.leaf with
      | true => exact entered_number _ _
      | false =>
        refine (entered_number _ _).trans ?_
        show (table.enterAll layer.children).2.entered + 1 = _
        rw [ihc]
        rfl
    rw [ShapeTable.enterAll, partsAll, List.length_append, ← Nat.add_assoc, ← henter]
    exact ihs (table.enter layer).2

end ShapeTable

/-! ## Calls -/

/-- A call of a shape table. -/
inductive ShapeCall where
  /-- Enter a layer; gives the numbers of all its parts. -/
  | tree (layer : Layer)
  /-- Enter a layer; gives the number of the layer only. -/
  | id (layer : Layer)

namespace ShapeCall

/-- The layer that a call enters. -/
def layer : ShapeCall → Layer
  | .tree layer => layer
  | .id layer => layer

/-- The layers that a call gives numbers to. -/
def asked : ShapeCall → List Layer
  | .tree layer => layer.parts
  | .id layer => [layer]

end ShapeCall

namespace ShapeTable

open Layer

/-- What a call gives, layers with their numbers, and the table after it. -/
def perform (table : ShapeTable) : ShapeCall → List (Layer × Nat) × ShapeTable
  | .tree layer => (layer.numbered (table.enter layer).1, (table.enter layer).2)
  | .id layer => ([(layer, (table.shapeId layer).1)], (table.shapeId layer).2)

/-- What calls give one after the other, and the table after them. -/
def run (table : ShapeTable) : List ShapeCall → List (Layer × Nat) × ShapeTable
  | [] => ([], table)
  | call :: calls =>
    let first := table.perform call
    let rest := first.2.run calls
    (first.1 ++ rest.1, rest.2)

/-- What calls have done: the layers asked for have the numbers of their shapes in the table, the
shapes entered have all the numbers that there are, and every part entered is counted. -/
structure Outcome (table : ShapeTable) (shapes : List Shape) (asked entered : List Layer)
    (given : List (Layer × Nat)) (after : ShapeTable) : Prop where
  /-- The table only grows. -/
  grows : table.levels <+: after.levels
  /-- Each layer asked for is given a number. -/
  asked : given.map Prod.fst = asked
  /-- The numbers given are those of the shapes. -/
  numbers : ∀ pair ∈ given, pair.1.shape.number? after.levels = some pair.2
  /-- The shapes entered have numbers. -/
  found : ∀ layer ∈ entered, ∃ id, layer.shape.number? after.levels = some id
  /-- There are no other numbers than those of the shapes entered. -/
  covers : Covers after.levels (shapes ++ entered.map shape)
  /-- The parts entered are counted. -/
  count : after.entered = table.entered + entered.length

variable {table : ShapeTable} {shapes : List Shape}

/-- A call gives the layers that it asks for the numbers of their shapes, and counts every part. -/
theorem perform_outcome (h : Covers table.levels shapes) (call : ShapeCall) :
    Outcome table shapes call.asked call.layer.parts (table.perform call).1
      (table.perform call).2 := by
  -- entering a layer is entering a list that has this layer alone
  have houtcome : ∀ layer : Layer,
      Outcome table shapes layer.parts layer.parts (layer.numbered (table.enter layer).1)
        (table.enter layer).2 := by
    intro layer
    obtain ⟨hgrows, hnumbers⟩ := enter_numbers table layer
    obtain ⟨hparts, hgiven⟩ := (numbersAll_singleton.2 hnumbers).numberedAll
    have hcovers := h.enterAll [layer]
    have hcount := entered_enterAll table [layer]
    have hnumbered (tree : ShapeTree) : numberedAll [layer] [tree] = layer.numbered tree :=
      List.append_nil _
    have hsingle : partsAll [layer] = layer.parts := List.append_nil _
    rw [hnumbered] at hparts hgiven
    rw [hsingle] at hparts hcovers hcount
    refine ⟨hgrows, hparts, hgiven, fun part hpart => ?_, hcovers, hcount⟩
    rw [← hparts] at hpart
    obtain ⟨pair, hpair, rfl⟩ := List.mem_map.1 hpart
    exact ⟨pair.2, hgiven pair hpair⟩
  cases call with
  | tree layer => exact houtcome layer
  | id layer =>
    obtain ⟨hgrows, -, hgiven, hfound, hcovers, hcount⟩ := houtcome layer
    refine ⟨hgrows, rfl, List.forall_mem_singleton.2 ?_, hfound, hcovers, hcount⟩
    refine hgiven (layer, (table.enter layer).1.id) ?_
    rw [numbered_eq]
    exact List.mem_cons_self

/-- **What calls give, and the table after them.** -/
theorem run_outcome (h : Covers table.levels shapes) (calls : List ShapeCall) :
    Outcome table shapes (calls.flatMap ShapeCall.asked)
      (calls.flatMap fun call => call.layer.parts) (table.run calls).1 (table.run calls).2 := by
  induction calls generalizing table shapes with
  | nil =>
    refine ⟨List.prefix_rfl, rfl, List.forall_mem_nil _, List.forall_mem_nil _, ?_, rfl⟩
    rw [List.flatMap_nil, List.map_nil, List.append_nil]
    exact h
  | cons call calls ih =>
    have hfirst := perform_outcome h call
    have hrest := ih hfirst.covers
    rw [run, List.flatMap_cons, List.flatMap_cons]
    -- the numbers that the first call gave still are those of the shapes after the other calls
    refine ⟨hfirst.grows.trans hrest.grows, ?_, ?_, ?_, ?_, ?_⟩
    · rw [List.map_append, hfirst.asked, hrest.asked]
    · refine List.forall_mem_append.2 ⟨fun pair hpair => ?_, hrest.numbers⟩
      exact Shape.number?_mono hrest.grows (hfirst.numbers pair hpair)
    · refine List.forall_mem_append.2 ⟨fun layer hlayer => ?_, hrest.found⟩
      obtain ⟨id, hid⟩ := hfirst.found layer hlayer
      exact ⟨id, Shape.number?_mono hrest.grows hid⟩
    · have hcovers := hrest.covers
      rw [List.append_assoc, ← List.map_append] at hcovers
      exact hcovers
    · rw [hrest.count, hfirst.count, List.length_append, Nat.add_assoc]

/-- **What numbers tell of shapes.** Over all calls since a table was made or cleared, every layer
asked for is given a number, and two of them, in one call or in different ones, are given the same
exactly when they have one shape: the same title, both or neither a leaf, and, if not, below them
the same shapes one by one. The table has as many numbers as there are different shapes among the
layers entered, and it counts these layers once for each call. -/
theorem numbers_of_fresh {start : ShapeTable}
    (hstart : start = {} ∨ ∃ old : ShapeTable, start = old.clear) (calls : List ShapeCall) :
    let given := (start.run calls).1
    let stop := (start.run calls).2
    let entered := calls.flatMap fun call => call.layer.parts
    given.map Prod.fst = calls.flatMap ShapeCall.asked ∧
    (∀ a ∈ given, ∀ b ∈ given, a.2 = b.2 ↔ a.1.shape = b.1.shape) ∧
    (∀ layer other : Layer, layer.shape = other.shape ↔
      layer.title = other.title ∧ layer.leaf = other.leaf ∧
        (layer.leaf = false → layer.children.map shape = other.children.map shape)) ∧
    stop.size = (entered.map shape).toFinset.card ∧
    stop.entered = entered.length := by
  intro given stop entered
  have hempty : start = {} := by
    rcases hstart with rfl | ⟨old, rfl⟩ <;> rfl
  -- a new table has no numbers, so the run covers all that there are in the end
  have hnothing : Covers start.levels [] := by
    rw [hempty]
    exact fun id hid => absurd hid (Nat.not_lt_zero id)
  have houtcome := run_outcome hnothing calls
  refine ⟨houtcome.asked, fun a ha b hb => ?_, fun _ _ => shape_eq_iff, ?_, ?_⟩
  · have hnumber := houtcome.numbers a ha
    have hnumber' := houtcome.numbers b hb
    constructor
    · intro heq
      exact Shape.number?_inj hnumber (heq ▸ hnumber')
    · intro heq
      rw [heq, hnumber', Option.some.injEq] at hnumber
      exact hnumber.symm
  · refine houtcome.covers.card_eq fun shape hshape => ?_
    obtain ⟨layer, hlayer, rfl⟩ := List.mem_map.1 hshape
    exact houtcome.found layer hlayer
  · rw [houtcome.count, hempty]
    exact Nat.zero_add _

/-- In a cleared table, a layer and another one with other keys, and with nothing below its leaf,
have one shape, since they are given one number. -/
theorem numbers_of_cleared :
    let start := (ShapeTable.enter {} { title := "p", key := .number 7 }).2.clear
    let layer : Layer :=
      { title := "div", key := .number 0, children := [
        { title := "img", key := .number 1, leaf := true, children := [
          { title := "b", key := .number 2 }] }] }
    let other : Layer :=
      { title := "div", key := .name "a", children := [
        { title := "img", key := .name "b", leaf := true }] }
    let stop := start.run [.tree layer, .id other]
    stop.1.map Prod.snd = [1, 0, 1] ∧ layer.shape = other.shape ∧ stop.2.size = 2 ∧
      stop.2.entered = 4 := by
  intro start layer other stop
  have hstop := numbers_of_fresh (.inr ⟨_, rfl⟩ : start = {} ∨ ∃ old, start = clear old)
    [.tree layer, .id other]
  obtain ⟨-, hnumbers, -, hsize, hentered⟩ := hstop
  refine ⟨by decide, ?_, hsize.trans (by decide), hentered⟩
  refine (hnumbers (layer, 1) ?_ (other, 1) ?_).1 rfl
  · exact List.mem_cons_self
  · exact List.mem_cons_of_mem _ (List.mem_cons_of_mem _ List.mem_cons_self)

end ShapeTable

end PageTree
