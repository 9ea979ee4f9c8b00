import PageTree.Layer.ShapeTable

/-! # Rendering layers

A renderer turns layers into the nodes that they stand for and remembers the children of every
shape. When a shape comes again its children are taken from memory, with the keys of the layers that
had the shape first. **`Renderer.render`** renders a layer, **`Renderer.renderAll`** layers side by
side, and **`Renderer.clear`** forgets everything but the counts of hits and misses. -/

namespace PageTree

/-- A renderer with its memory. -/
structure Renderer where
  /-- The numbers of the shapes met. -/
  shapes : ShapeTable := {}
  /-- The children that belong to the number of a shape. -/
  cache : List (Nat × Forest) := []
  /-- How often children were taken from memory. -/
  hits : Nat := 0
  /-- How often children had to be built. -/
  misses : Nat := 0

namespace Renderer

/-- Remembers the children of a shape. -/
def remember (r : Renderer) (id : Nat) (children : Forest) : Renderer :=
  { r with cache := (id, children) :: r.cache.filter fun entry => entry.1 != id }

mutual

/-- Builds the node of a layer whose shape is numbered. -/
def build (r : Renderer) : Layer → ShapeTree → Node × Renderer
  | { title, key, leaf, children }, tree =>
    let node := Layer.element title key leaf
    if leaf then (node, r)
    else
      match r.cache.lookup tree.id with
      | some known => ({ node with children := known }, { r with hits := r.hits + 1 })
      | none =>
        let (children, r) := buildAll { r with misses := r.misses + 1 } children tree.children
        ({ node with children := children }, r.remember tree.id children)

/-- Builds the nodes of layers in order. -/
def buildAll (r : Renderer) : List Layer → List ShapeTree → Forest × Renderer
  | layer :: layers, tree :: trees =>
    let (node, r) := r.build layer tree
    let (forest, r) := buildAll r layers trees
    (node :: forest, r)
  | _, _ => ([], r)

end

/-- Renders a layer: numbers the shapes of the whole layer first, then builds its node. -/
def render (r : Renderer) (layer : Layer) : Node × Renderer :=
  let (tree, shapes) := r.shapes.enter layer
  { r with shapes := shapes }.build layer tree

/-- Renders layers one after the other. -/
def renderAll (r : Renderer) : List Layer → Forest × Renderer
  | [] => ([], r)
  | layer :: layers =>
    let (node, r) := r.render layer
    let (forest, r) := r.renderAll layers
    (node :: forest, r)

/-- Forgets the shapes and their children. -/
def clear (r : Renderer) : Renderer := { r with shapes := {}, cache := [] }

end Renderer

end PageTree
