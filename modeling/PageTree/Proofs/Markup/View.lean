import PageTree.Proofs.Markup.MergedPage

/-! # What of a forest is written

A **`Markup.View`** is what of a node is written: the content of a text, and the tag and the
attributes of an element with the views of its children if it is a container. Main statements:
`forestText_eq_viewsText`, the markup of a forest is what its views say, and `page_bare`, so display
names, what is below self-closing elements and, in inline mode, keys make no difference. -/

namespace PageTree.Markup

/-! ## Views -/

/-- What of a node is written. -/
inductive View where
  /-- The content of a text. -/
  | text (content : String)
  /-- The tag of a self-closing element and its attributes. -/
  | single (tag : String) (attributes : List (String × String))
  /-- The tag of a container, its attributes and its children. -/
  | container (tag : String) (attributes : List (String × String)) (children : List View)

/-- The views of the children; only containers have any. -/
def View.children : View → List View
  | .container _ _ children => children
  | _ => []

/-- A property of lists of views holds of all of them if it holds of the empty one and passes from
the children of the first view and from the other views to the whole. -/
@[elab_as_elim]
theorem View.induction {motive : List View → Prop} (nil : motive [])
    (cons : ∀ (view : View) (views : List View), motive view.children → motive views →
      motive (view :: views)) (views : List View) : motive views :=
  @View.rec_1 (fun view => motive view.children) motive
    (fun _ => nil) (fun _ _ => nil) (fun _ _ _ children => children)
    nil (fun view views children rest => cons view views children rest) views

/-- The declarations of a node as they stand in its `style` attribute; a style without a value that
can be written has none. -/
def declarationText? (node : Node) : Option String :=
  ((effectiveStyle? node).filter Style.hasValid).map Style.inlineText

/-- The names and values of the attributes of a node in the order in which they are written. -/
def attributeValues (options : Options) (node : Node) : List (String × String) :=
  let props := node.props.getD {}
  (props.id.map fun id => ("id", id)).toList ++
    ((class? options node).map fun c => ("class", c)).toList ++
    props.attributes.map (fun a => (a.name, a.value)) ++
    ((declarationText? node).map fun text => ("style", text)).toList

mutual

/-- The view of a node. -/
def nodeView (options : Options) : Node → View
  | { kind, key, tag, displayName, children, props, content } =>
    let node : Node := { kind, key, tag, displayName, children, props, content }
    match kind with
    | .text => .text (content.getD "")
    | .single => .single tag (attributeValues options node)
    | .container =>
      .container tag (attributeValues options node) (forestViews options children)

/-- The views of the nodes of a forest. -/
def forestViews (options : Options) : Forest → List View
  | [] => []
  | node :: forest => nodeView options node :: forestViews options forest

end

/-- The view of a node by its kind; only a container shows its children. -/
theorem nodeView_eq (options : Options) (node : Node) :
    nodeView options node =
      match node.kind with
      | .text => .text (node.content.getD "")
      | .single => .single node.tag (attributeValues options node)
      | .container =>
        .container node.tag (attributeValues options node) (forestViews options node.children) := by
  cases node; rfl

/-- There is nothing to see of a forest exactly when it is empty. -/
theorem isEmpty_forestViews (options : Options) (forest : Forest) :
    (forestViews options forest).isEmpty = forest.isEmpty := by
  cases forest <;> rfl

/-! ## Writing views -/

/-- The opening tag of an element, which is its only tag if it is self-closing. -/
def tagText (selfClosing : Bool) (tag : String) (attributes : List (String × String)) : String :=
  "<" ++ tag ++ String.join (attributes.map fun a => attributeText (a.1, .quoted a.2)) ++
    if selfClosing then " />" else ">"

mutual

/-- The markup of a view at a nesting depth. -/
def viewText (options : Options) (depth : Nat) : View → String
  | .text content => line options depth (escapeText content)
  | .single tag attributes => line options depth (tagText true tag attributes)
  | .container tag attributes children =>
    if children.isEmpty then
      line options depth (tagText false tag attributes ++ closingTag tag)
    else
      line options depth (tagText false tag attributes) ++ viewsText options (depth + 1) children ++
        line options depth (closingTag tag)

/-- The markup of views side by side. -/
def viewsText (options : Options) (depth : Nat) : List View → String
  | [] => ""
  | view :: views => viewText options depth view ++ viewsText options depth views

end

/-! ## The markup of a forest -/

variable {options : Options}

/-- In the HTML dialect every attribute is a text between quotes. -/
theorem attributes_eq_map_quoted (hdialect : options.dialect = .html) (node : Node) :
    attributes options node =
      (attributeValues options node).map fun a => (a.1, .quoted a.2) := by
  have hstyle : styleValue? options node = (declarationText? node).map .quoted := by
    rw [styleValue?, declarationText?]
    cases effectiveStyle? node with
    | none => rfl
    | some style =>
      simp only [Option.bind_some, Option.filter_some]
      cases style.hasValid with
      | true =>
        rw [hdialect]
        cases options.styleMode <;> rfl
      | false => rfl
  simp only [attributes, attributeValues, hdialect, hstyle, Dialect.classAttribute,
    List.map_append, List.map_map, Option.map_map, ← Option.toList_map, Function.comp_def]

/-- In the plain dialect an opening tag is written from the attributes that are seen of the node. -/
theorem openingTag_eq_tagText (hdialect : options.dialect = .html) (node : Node) :
    openingTag options node =
      tagText (node.kind = .single) node.tag (attributeValues options node) := by
  rw [openingTag, tagText, attributes_eq_map_quoted hdialect, List.map_map]
  simp only [Function.comp_def, decide_eq_true_eq]

/-- **The markup of a forest is what its views say.** -/
theorem forestText_eq_viewsText (hdialect : options.dialect = .html) (forest : Forest)
    (depth : Nat) :
    forestText options depth forest = viewsText options depth (forestViews options forest) := by
  induction forest using Forest.induction generalizing depth with
  | nil => rfl
  | cons node forest ihc ihf =>
    rw [forestText_cons, forestViews, viewsText, ihf, nodeText_eq, nodeView_eq]
    congr 1
    have htag := openingTag_eq_tagText hdialect node
    cases hkind : node.kind with
    | text => rw [viewText]
    | single =>
      rw [hkind] at htag
      rw [viewText, htag]
      rfl
    | container =>
      rw [hkind] at htag
      rw [viewText, htag, isEmpty_forestViews, ihc]
      rfl

/-! ## What makes no difference -/

mutual

/-- A node without its display name and, in inline mode, its key; a self-closing element has nothing
below it. -/
def bareNode (options : Options) : Node → Node
  | { kind, key, tag, displayName := _, children, props, content } =>
    { kind, tag, props, content
      key := if options.styleMode = .inline then default else key
      children := match kind with
        | .text => children
        | .single => []
        | .container => bareForest options children }

/-- A forest without display names, keys that are not written and nodes below self-closing
elements. -/
def bareForest (options : Options) : Forest → Forest
  | [] => []
  | node :: forest => bareNode options node :: bareForest options forest

end

/-- The bare node keeps the fields that are written and the children that are. -/
theorem bareNode_eq (options : Options) (node : Node) :
    bareNode options node =
      { kind := node.kind, tag := node.tag, props := node.props, content := node.content
        key := if options.styleMode = .inline then default else node.key
        children := match node.kind with
          | .text => node.children
          | .single => []
          | .container => bareForest options node.children } := by
  cases node; rfl

/-- The bare node has the same kind. -/
@[simp] theorem bareNode_kind (node : Node) : (bareNode options node).kind = node.kind := by
  rw [bareNode_eq]

/-- The bare node has the same tag. -/
@[simp] theorem bareNode_tag (node : Node) : (bareNode options node).tag = node.tag := by
  rw [bareNode_eq]

/-- The bare node has the same properties. -/
@[simp] theorem bareNode_props (node : Node) : (bareNode options node).props = node.props := by
  rw [bareNode_eq]

/-- The bare node has the same content. -/
@[simp] theorem bareNode_content (node : Node) :
    (bareNode options node).content = node.content := by
  rw [bareNode_eq]

/-- In class mode the bare node has the same key. -/
theorem bareNode_key (hmode : options.styleMode = .classes) (node : Node) :
    (bareNode options node).key = node.key := by
  rw [bareNode_eq, hmode]
  rfl

/-- The children of a bare container are bare. -/
theorem bareNode_children {node : Node} (hkind : node.kind = .container) :
    (bareNode options node).children = bareForest options node.children := by
  rw [bareNode_eq, hkind]

/-- The bare node has the same explicit class. -/
theorem explicitClass?_bareNode (node : Node) :
    explicitClass? (bareNode options node) = explicitClass? node := by
  rw [explicitClass?, explicitClass?, bareNode_props]

/-- The bare node has the same style. -/
theorem effectiveStyle?_bareNode (node : Node) :
    effectiveStyle? (bareNode options node) = effectiveStyle? node := by
  rw [effectiveStyle?, effectiveStyle?, bareNode_props]

/-- The bare node has the same attributes, its generated class included. -/
theorem attributeValues_bareNode (node : Node) :
    attributeValues options (bareNode options node) = attributeValues options node := by
  have hclass : class? options (bareNode options node) = class? options node := by
    rw [class?, class?, explicitClass?_bareNode]
    cases hmode : options.styleMode with
    | inline => cases explicitClass? node <;> rfl
    | classes => rw [bareNode_key hmode]
  rw [attributeValues, attributeValues, hclass, bareNode_props, declarationText?, declarationText?,
    effectiveStyle?_bareNode]

/-- Bare forests have the same views. -/
theorem forestViews_bareForest (forest : Forest) :
    forestViews options (bareForest options forest) = forestViews options forest := by
  induction forest using Forest.induction with
  | nil => rfl
  | cons node forest ihc ihf =>
    rw [bareForest, forestViews, forestViews, ihf, nodeView_eq, nodeView_eq options node,
      bareNode_kind, bareNode_content, bareNode_tag, attributeValues_bareNode]
    cases hkind : node.kind with
    | text => rfl
    | single => rfl
    | container => rw [bareNode_children hkind, ihc]

/-- The elements of a bare forest are the bare elements. -/
theorem elements_bareForest (forest : Forest) :
    elements (bareForest options forest) = (elements forest).map (bareNode options) := by
  induction forest using Forest.induction with
  | nil => rfl
  | cons node forest ihc ihf =>
    rw [bareForest, elements_cons, elements_cons, ihf, bareNode_kind]
    cases hkind : node.kind with
    | text => simp
    | single => simp
    | container => simp [bareNode_children hkind, ihc]

/-- In classes mode bare forests have the same rules. -/
theorem rules_bareForest (hmode : options.styleMode = .classes) (forest : Forest) :
    rules (bareForest options forest) = rules forest := by
  have hadd : ∀ (table : RuleTable) (node : Node),
      table.add (bareNode options node) = table.add node := by
    intro table node
    rw [RuleTable.add, RuleTable.add, explicitClass?_bareNode, bareNode_key hmode, declarations,
      declarations, effectiveStyle?_bareNode]
  rw [rules, rules, elements_bareForest, List.foldlM_map]
  simp only [hadd]

/-- Bare forests can be written if the forests can. -/
theorem fault?_bareForest {forest : Forest} (h : Forest.fault? forest = none) :
    Forest.fault? (bareForest options forest) = none := by
  induction forest using Forest.induction with
  | nil => rfl
  | cons node forest ihc ihf =>
    rw [Forest.fault?, Option.or_eq_none_iff, Node.fault?_eq] at h
    obtain ⟨hnode, hrest⟩ := h
    rw [bareForest, Forest.fault?, Option.or_eq_none_iff]
    refine ⟨?_, ihf hrest⟩
    rw [Node.fault?_eq, bareNode_kind, bareNode_tag]
    cases hkind : node.kind with
    | text =>
      rw [hkind] at hnode
      have hchildren : (bareNode options node).children = node.children := by
        rw [bareNode_eq, hkind]
      dsimp only at hnode ⊢
      rw [hchildren]
      split at hnode
      next hempty => rw [if_pos hempty]
      next => contradiction
    | single =>
      rw [hkind] at hnode
      dsimp only at hnode ⊢
      split at hnode
      next => contradiction
      next hblank => rw [if_neg hblank]
    | container =>
      rw [hkind] at hnode
      dsimp only at hnode ⊢
      split at hnode
      next => contradiction
      next hblank => rw [if_neg hblank, bareNode_children hkind, ihc hnode]

/-- **What makes no difference.** Display names, what is below self-closing elements and, in inline
mode, keys are not in the page of a forest. -/
theorem page_bareForest (hdialect : options.dialect = .html) {forest : Forest} {text : String}
    (h : page options forest = .ok text) :
    page options (bareForest options forest) = .ok text := by
  have hmarkup :
      forestText options 0 (bareForest options forest) = forestText options 0 forest := by
    rw [forestText_eq_viewsText hdialect, forestText_eq_viewsText hdialect, forestViews_bareForest]
  have hsheet : styleSheet options (bareForest options forest) = styleSheet options forest := by
    rw [styleSheet, styleSheet]
    cases hmode : options.styleMode with
    | inline => rfl
    | classes => rw [rules_bareForest hmode]
  have hfault := (eq_of_page_eq_ok h).1
  rw [page, hfault] at h
  rw [page, fault?_bareForest hfault, hsheet, hmarkup]
  exact h

end PageTree.Markup
