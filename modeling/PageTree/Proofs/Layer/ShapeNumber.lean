import PageTree.Layer.ShapeTable

/-! # Numbers of shapes

The number of a shape in a table is that of its level with the numbers of the shapes below it
(**`Shape.number?`**). Different shapes have different numbers (**`Shape.numbers?_inj`**), and a
number stays the same when the table grows (**`Shape.numbers?_mono`**). Main statement:
`ShapeTable.enterAll_numbers`, entering layers only makes the table grow, and what comes out are the
numbers of their shapes. -/

namespace PageTree

/-! ## Shapes and layers -/

/-- The shapes below a shape. -/
def Shape.children : Shape → List Shape
  | .leaf _ => []
  | .branch _ shapes => shapes

/-- A property of lists of shapes holds of all of them if it holds of the empty one and passes from
what is below the first shape and from the other shapes to the whole. -/
@[elab_as_elim]
theorem Shape.induction {motive : List Shape → Prop} (nil : motive [])
    (cons : ∀ (shape : Shape) (shapes : List Shape), motive shape.children → motive shapes →
      motive (shape :: shapes)) (shapes : List Shape) : motive shapes :=
  @Shape.rec_1 (fun shape => motive shape.children) motive (fun _ => nil) (fun _ _ below => below)
    nil (fun shape shapes below rest => cons shape shapes below rest) shapes

/-- A property of lists of layers holds of all of them if it holds of the empty one and passes from
the layers below the first one and from the other layers to the whole. -/
@[elab_as_elim]
theorem Layer.induction {motive : List Layer → Prop} (nil : motive [])
    (cons : ∀ (layer : Layer) (layers : List Layer), motive layer.children → motive layers →
      motive (layer :: layers)) (layers : List Layer) : motive layers :=
  @Layer.rec_1 (fun layer => motive layer.children) motive (fun _ _ _ _ below => below) nil
    (fun layer layers below rest => cons layer layers below rest) layers

mutual

/-- Whether two shapes are the same. -/
def Shape.decEq : (shape other : Shape) → Decidable (shape = other)
  | .leaf title, .leaf title' => decidable_of_iff (title = title') ⟨congrArg _, Shape.leaf.inj⟩
  | .leaf _, .branch _ _ => .isFalse nofun
  | .branch _ _, .leaf _ => .isFalse nofun
  | .branch title shapes, .branch title' shapes' =>
    haveI := Shape.decEqList shapes shapes'
    decidable_of_iff (title = title' ∧ shapes = shapes') (by simp)

/-- Whether two lists of shapes are the same. -/
def Shape.decEqList : (shapes others : List Shape) → Decidable (shapes = others)
  | [], [] => .isTrue rfl
  | [], _ :: _ => .isFalse nofun
  | _ :: _, [] => .isFalse nofun
  | shape :: shapes, other :: others =>
    haveI := Shape.decEq shape other
    haveI := Shape.decEqList shapes others
    decidable_of_iff (shape = other ∧ shapes = others) (by simp)

end

instance : DecidableEq Shape := Shape.decEq

/-- The shape of a leaf is its title. -/
theorem Layer.shape_of_leaf {layer : Layer} (hleaf : layer.leaf = true) :
    layer.shape = .leaf layer.title := by
  cases layer
  obtain rfl := hleaf
  rfl

/-- The shape of any other layer is its title with the shapes below it. -/
theorem Layer.shape_of_branch {layer : Layer} (hleaf : layer.leaf = false) :
    layer.shape = .branch layer.title (Layer.shapes layer.children) := by
  cases layer
  obtain rfl := hleaf
  rfl

/-! ## Numbers -/

namespace Shape

/-- The level of a shape, with numbers for the shapes below it. -/
def level : Shape → List Nat → ShapeLevel
  | .leaf title, ids => ⟨title, true, ids⟩
  | .branch title _, ids => ⟨title, false, ids⟩

mutual

/-- The number of a shape among levels. -/
def number? (levels : List ShapeLevel) : Shape → Option Nat
  | .leaf title => levels.idxOf? ⟨title, true, []⟩
  | .branch title shapes =>
    (numbers? levels shapes).bind fun ids => levels.idxOf? ⟨title, false, ids⟩

/-- The numbers of shapes among levels. -/
def numbers? (levels : List ShapeLevel) : List Shape → Option (List Nat)
  | [] => some []
  | shape :: shapes =>
    (number? levels shape).bind fun id => (numbers? levels shapes).map (id :: ·)

end

variable {levels : List ShapeLevel} {shape other : Shape} {shapes others : List Shape}

/-- A shape has a number exactly when those below it have numbers, with which its level has it. -/
theorem number?_eq_some_iff {id : Nat} :
    number? levels shape = some id ↔
      ∃ ids, numbers? levels shape.children = some ids ∧
        levels.idxOf? (shape.level ids) = some id := by
  cases shape with
  | leaf title => simp [number?, children, numbers?, level]
  | branch title shapes => simp [number?, children, level, Option.bind_eq_some_iff]

/-- Shapes have numbers exactly when the first has one and the others have theirs. -/
theorem numbers?_cons_eq_some_iff {ids : List Nat} :
    numbers? levels (shape :: shapes) = some ids ↔
      ∃ id rest, number? levels shape = some id ∧ numbers? levels shapes = some rest ∧
        ids = id :: rest := by
  simp only [numbers?, Option.bind_eq_some_iff, Option.map_eq_some_iff]
  constructor
  · rintro ⟨id, hid, rest, hrest, rfl⟩
    exact ⟨id, rest, hid, hrest, rfl⟩
  · rintro ⟨id, rest, hid, hrest, rfl⟩
    exact ⟨id, hid, rest, hrest, rfl⟩

/-- Levels with the same number are the same. -/
theorem eq_of_idxOf?_eq {a b : ShapeLevel} {id : Nat} (ha : levels.idxOf? a = some id)
    (hb : levels.idxOf? b = some id) : a = b := by
  obtain ⟨_, rfl, -⟩ := List.idxOf?_eq_some_iff.1 ha
  obtain ⟨_, rfl, -⟩ := List.idxOf?_eq_some_iff.1 hb
  rfl

/-- A shape is known from its level and what is below it. -/
theorem eq_of_level_eq {ids ids' : List Nat} (hlevel : shape.level ids = other.level ids')
    (hchildren : shape.children = other.children) : shape = other := by
  cases shape with
  | leaf title =>
    cases other with
    | leaf title' => rw [(ShapeLevel.mk.inj hlevel).1]
    | branch title' shapes' => exact Bool.noConfusion (ShapeLevel.mk.inj hlevel).2.1
  | branch title shapes =>
    cases other with
    | leaf title' => exact Bool.noConfusion (ShapeLevel.mk.inj hlevel).2.1
    | branch title' shapes' =>
      obtain rfl : shapes = shapes' := hchildren
      rw [(ShapeLevel.mk.inj hlevel).1]

/-- A level tells the numbers of the shapes below. -/
theorem level_ids {ids ids' : List Nat} (h : shape.level ids = other.level ids') : ids = ids' := by
  cases shape <;> cases other <;> exact (ShapeLevel.mk.inj h).2.2

/-- **Different shapes have different numbers.** -/
theorem numbers?_inj {ids : List Nat} (h : numbers? levels shapes = some ids)
    (h' : numbers? levels others = some ids) : shapes = others := by
  -- one number is one level, which has the title and the numbers of what is below
  induction shapes using Shape.induction generalizing others ids with
  | nil =>
    obtain rfl := Option.some.inj h
    cases others with
    | nil => rfl
    | cons other others =>
      obtain ⟨_, _, -, -, heq⟩ := numbers?_cons_eq_some_iff.1 h'
      contradiction
  | cons shape shapes ihc ihs =>
    obtain ⟨id, rest, hid, hrest, rfl⟩ := numbers?_cons_eq_some_iff.1 h
    cases others with
    | nil =>
      have heq := Option.some.inj h'
      contradiction
    | cons other others =>
      obtain ⟨id', rest', hid', hrest', heq⟩ := numbers?_cons_eq_some_iff.1 h'
      obtain ⟨rfl, rfl⟩ := List.cons.inj heq
      obtain ⟨ids, hids, hlevel⟩ := number?_eq_some_iff.1 hid
      obtain ⟨ids', hids', hlevel'⟩ := number?_eq_some_iff.1 hid'
      have hlevels := eq_of_idxOf?_eq hlevel hlevel'
      obtain rfl := level_ids hlevels
      rw [eq_of_level_eq hlevels (ihc hids hids'), ihs hrest hrest']

/-- Two shapes with one number are the same. -/
theorem number?_inj {id : Nat} (h : number? levels shape = some id)
    (h' : number? levels other = some id) : shape = other := by
  have hsingle : ∀ {shape : Shape}, number? levels shape = some id →
      numbers? levels [shape] = some [id] :=
    fun h => numbers?_cons_eq_some_iff.2 ⟨id, [], h, rfl, rfl⟩
  exact (List.cons.inj (numbers?_inj (hsingle h) (hsingle h'))).1

variable {levels' : List ShapeLevel}

/-- A level keeps its number while levels are added. -/
theorem idxOf?_mono (hgrows : levels <+: levels') {a : ShapeLevel} {id : Nat}
    (h : levels.idxOf? a = some id) : levels'.idxOf? a = some id := by
  obtain ⟨more, rfl⟩ := hgrows
  rw [List.idxOf?] at h ⊢
  rw [List.findIdx?_append, h]
  rfl

/-- **Numbers stay the same when there are more levels.** -/
theorem numbers?_mono (hgrows : levels <+: levels') {ids : List Nat}
    (h : numbers? levels shapes = some ids) : numbers? levels' shapes = some ids := by
  induction shapes using Shape.induction generalizing ids with
  | nil => exact h
  | cons shape shapes ihc ihs =>
    obtain ⟨id, rest, hid, hrest, rfl⟩ := numbers?_cons_eq_some_iff.1 h
    obtain ⟨below, hbelow, hlevel⟩ := number?_eq_some_iff.1 hid
    refine numbers?_cons_eq_some_iff.2 ⟨id, rest, ?_, ihs hrest, rfl⟩
    exact number?_eq_some_iff.2 ⟨below, ihc hbelow, idxOf?_mono hgrows hlevel⟩

/-- A shape keeps its number while levels are added. -/
theorem number?_mono (hgrows : levels <+: levels') {id : Nat}
    (h : number? levels shape = some id) : number? levels' shape = some id := by
  obtain ⟨ids, hids, hlevel⟩ := number?_eq_some_iff.1 h
  exact number?_eq_some_iff.2 ⟨ids, numbers?_mono hgrows hids, idxOf?_mono hgrows hlevel⟩

end Shape

/-! ## Entering layers -/

namespace ShapeTable

mutual

/-- Whether a tree holds the numbers of the shapes of a layer and of those below it. -/
def Numbers (levels : List ShapeLevel) : Layer → ShapeTree → Prop
  | { title, key, leaf, children }, tree =>
    (Layer.shape { title, key, leaf, children }).number? levels = some tree.id ∧
      (leaf = false → NumbersAll levels children tree.children)

/-- Whether trees hold the numbers of the shapes of layers. -/
def NumbersAll (levels : List ShapeLevel) : List Layer → List ShapeTree → Prop
  | [], [] => True
  | layer :: layers, tree :: trees => Numbers levels layer tree ∧ NumbersAll levels layers trees
  | _, _ => False

end

variable {levels levels' : List ShapeLevel} {layer : Layer} {layers : List Layer}
  {tree : ShapeTree} {trees : List ShapeTree}

/-- A tree numbers a layer when it has the number of its shape and numbers the layers below it. -/
theorem numbers_iff :
    Numbers levels layer tree ↔ layer.shape.number? levels = some tree.id ∧
      (layer.leaf = false → NumbersAll levels layer.children tree.children) := by
  cases layer; rfl

/-- The numbers of trees that number layers are those of their shapes. -/
theorem NumbersAll.numbers? (h : NumbersAll levels layers trees) :
    Shape.numbers? levels (Layer.shapes layers) = some (trees.map ShapeTree.id) := by
  induction layers generalizing trees with
  | nil =>
    cases trees with
    | nil => rfl
    | cons tree trees => exact h.elim
  | cons layer layers ih =>
    cases trees with
    | nil => exact h.elim
    | cons tree trees =>
      exact Shape.numbers?_cons_eq_some_iff.2
        ⟨tree.id, trees.map ShapeTree.id, (numbers_iff.1 h.1).1, ih h.2, rfl⟩

/-- Trees keep numbering layers while levels are added. -/
theorem NumbersAll.mono (h : NumbersAll levels layers trees) (hgrows : levels <+: levels') :
    NumbersAll levels' layers trees := by
  induction layers using Layer.induction generalizing trees with
  | nil =>
    cases trees with
    | nil => trivial
    | cons tree trees => exact h.elim
  | cons layer layers ihc ihs =>
    cases trees with
    | nil => exact h.elim
    | cons tree trees =>
      obtain ⟨hnumber, hbelow⟩ := numbers_iff.1 h.1
      have hlayer : Numbers levels' layer tree :=
        numbers_iff.2 ⟨Shape.number?_mono hgrows hnumber, fun hleaf => ihc (hbelow hleaf)⟩
      exact ⟨hlayer, ihs h.2⟩

/-- A single tree numbers a single layer. -/
theorem numbersAll_singleton :
    NumbersAll levels [layer] [tree] ↔ Numbers levels layer tree :=
  and_iff_left trivial

/-- Entering a layer enters those below it first, unless it is a leaf, and then gives its level a
number. -/
theorem enter_eq (table : ShapeTable) (layer : Layer) :
    table.enter layer =
      let below := if layer.leaf then ([], table) else table.enterAll layer.children
      let numbered := below.2.number ⟨layer.title, layer.leaf, below.1.map ShapeTree.id⟩
      (⟨numbered.1, below.1⟩, numbered.2) := by
  cases layer; rfl

/-- A level has its number afterwards, and the table only grows. -/
theorem number_numbers (table : ShapeTable) (level : ShapeLevel) :
    table.levels <+: (table.number level).2.levels ∧
      (table.number level).2.levels.idxOf? level = some (table.number level).1 := by
  rw [number]
  cases hindex : table.levels.idxOf? level with
  | some id => exact ⟨List.prefix_rfl, hindex⟩
  | none =>
    refine ⟨List.prefix_append .., ?_⟩
    rw [List.idxOf?] at hindex
    show (table.levels ++ [level]).idxOf? level = some table.size
    rw [List.idxOf?, List.findIdx?_append, hindex, List.findIdx?_singleton, size]
    simp

/-- **Entering layers makes the table grow only, and what comes out are the numbers of their
shapes.** -/
theorem enterAll_numbers (table : ShapeTable) (layers : List Layer) :
    table.levels <+: (table.enterAll layers).2.levels ∧
      NumbersAll (table.enterAll layers).2.levels layers (table.enterAll layers).1 := by
  induction layers using Layer.induction generalizing table with
  | nil => exact ⟨List.prefix_rfl, trivial⟩
  | cons layer layers ihc ihs =>
    -- the shapes below the layer come first, then its own level, then the other layers
    have henter : table.levels <+: (table.enter layer).2.levels ∧
        Numbers (table.enter layer).2.levels layer (table.enter layer).1 := by
      rw [enter_eq, numbers_iff]
      cases hleaf : layer.leaf with
      | true =>
        obtain ⟨hgrows, hindex⟩ := number_numbers table ⟨layer.title, true, []⟩
        rw [Layer.shape_of_leaf hleaf]
        exact ⟨hgrows, hindex, nofun⟩
      | false =>
        obtain ⟨hbelow, hnumbers⟩ := ihc table
        obtain ⟨hgrows, hindex⟩ := number_numbers (table.enterAll layer.children).2
          ⟨layer.title, false, (table.enterAll layer.children).1.map ShapeTree.id⟩
        have hstill := hnumbers.mono hgrows
        rw [Layer.shape_of_branch hleaf]
        refine ⟨hbelow.trans hgrows, ?_, fun _ => hstill⟩
        exact Shape.number?_eq_some_iff.2 ⟨_, hstill.numbers?, hindex⟩
    obtain ⟨hlayer, hnumbers⟩ := henter
    obtain ⟨hlayers, hrest⟩ := ihs (table.enter layer).2
    have hstill := (numbersAll_singleton.2 hnumbers).mono hlayers
    exact ⟨hlayer.trans hlayers, numbersAll_singleton.1 hstill, hrest⟩

/-- Entering a layer adds levels only and numbers it. -/
theorem enter_numbers (table : ShapeTable) (layer : Layer) :
    table.levels <+: (table.enter layer).2.levels ∧
      Numbers (table.enter layer).2.levels layer (table.enter layer).1 := by
  obtain ⟨hgrows, hall⟩ := enterAll_numbers table [layer]
  exact ⟨hgrows, numbersAll_singleton.1 hall⟩

end ShapeTable

end PageTree
