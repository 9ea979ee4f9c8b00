import PageTree.Layer

/-! # Shape tables

A table numbers the shapes that it meets. A shape is entered as one level, with the numbers of its
children's shapes, so each subtree is entered once, children first. **`ShapeTable.enter`** numbers a
layer and everything below it that belongs to its shape; within one table equal numbers are equal
shapes, until **`ShapeTable.clear`** forgets them. -/

namespace PageTree

/-- One level of a shape. -/
structure ShapeLevel where
  /-- The title. -/
  title : String
  /-- Whether it is a leaf. -/
  leaf : Bool
  /-- The numbers of the children's shapes. -/
  children : List Nat
  deriving DecidableEq, Repr

/-- The shapes met so far, each numbered by its place. -/
structure ShapeTable where
  /-- The levels. -/
  levels : List ShapeLevel := []
  /-- How many layers have been entered. -/
  entered : Nat := 0
  deriving Repr

/-- The number of a layer's shape with the numbers of those below it. -/
structure ShapeTree where
  /-- The number of the shape. -/
  id : Nat
  /-- The same for the children. -/
  children : List ShapeTree

namespace ShapeTable

/-- The number of shapes in a table. -/
def size (table : ShapeTable) : Nat := table.levels.length

/-- Gives the number of a level, which is new if the level is. -/
def number (table : ShapeTable) (level : ShapeLevel) : Nat × ShapeTable :=
  match table.levels.idxOf? level with
  | some id => (id, { table with entered := table.entered + 1 })
  | none =>
    (table.size, { levels := table.levels ++ [level], entered := table.entered + 1 })

mutual

/-- Enters a layer and those below it, unless it is a leaf. -/
def enter (table : ShapeTable) : Layer → ShapeTree × ShapeTable
  | { title, leaf, children, .. } =>
    let (children, table) := if leaf then ([], table) else enterAll table children
    let (id, table) := table.number ⟨title, leaf, children.map ShapeTree.id⟩
    (⟨id, children⟩, table)

/-- Enters layers in order. -/
def enterAll (table : ShapeTable) : List Layer → List ShapeTree × ShapeTable
  | [] => ([], table)
  | layer :: layers =>
    let (tree, table) := table.enter layer
    let (trees, table) := enterAll table layers
    (tree :: trees, table)

end

/-- Enters a layer and gives the number of its shape only. -/
def shapeId (table : ShapeTable) (layer : Layer) : Nat × ShapeTable :=
  let (tree, table) := table.enter layer
  (tree.id, table)

/-- Forgets all shapes and starts counting again. -/
def clear (_ : ShapeTable) : ShapeTable := {}

end ShapeTable

end PageTree
