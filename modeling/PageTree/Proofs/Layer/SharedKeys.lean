import PageTree.Proofs.ClassName
import PageTree.Proofs.Escape
import PageTree.Proofs.Layer.InlinePage
import PageTree.Proofs.Markup.Outcome
import PageTree.Proofs.Markup.Recovery

/-! # Pages of shared keys

A renderer takes children from memory with the keys that they were built with, so a key may come
several times in what it returns. Yet every element is that of a layer that was to be rendered
(**`Memory.renderAll_drawnFrom`**), and elements of layers declare nothing and have no class but the
generated one (**`Node.IsElementOf.openingTag_eq`**). Main statement:
`Renderer.shared_keys_never_clash`, layers whose keys have different classes have a page without a
rule, and the classes that its text holds (**`Forest.DrawnFrom.exists_views`**) are those of their
keys. -/

namespace PageTree

open Layer Markup

/-! ## Class names in markup -/

/-- No character of a generated class has an entity. -/
theorem substitute_of_isClassChar {c : Char} (h : Key.isClassChar c = true) :
    substitute true c = [c] := by
  rcases substitute_cases true c with
    ⟨rfl, -⟩ | ⟨rfl, -⟩ | ⟨rfl, -⟩ | ⟨rfl, -⟩ | ⟨-, -, -, -, hself⟩
  · contradiction
  · contradiction
  · contradiction
  · contradiction
  · exact hself

/-- A generated class is written as it is. -/
theorem Key.escapeAttribute_className (key : Key) :
    escapeAttribute key.className = key.className := by
  have hself : ∀ c ∈ key.className.toList, substitute true c = [c] :=
    fun c hc => substitute_of_isClassChar (Key.isClassChar_of_mem_className hc)
  rw [escapeAttribute, escapeChars_eq_substituteChars, substituteChars, List.flatMap_congr hself,
    List.flatMap_singleton', String.ofList_toList]

/-! ## Elements of layers -/

/-- Whether a node is the element of a layer, whatever its children are. -/
def Node.IsElementOf (node : Node) (layer : Layer) : Prop :=
  node = { element layer.title layer.key layer.leaf with children := node.children }

/-- The opening tag of the element of a layer in classes mode. -/
def Layer.classTag (options : Options) (layer : Layer) : String :=
  "<" ++ layer.title ++ " " ++ options.dialect.classAttribute ++ "=\"" ++ layer.key.className ++
    "\"" ++ if kind layer.title layer.leaf = .single then " />" else ">"

namespace Node.IsElementOf

variable {node : Node} {layer : Layer}

/-- The element of a layer has its key. -/
theorem key_eq (h : node.IsElementOf layer) : node.key = layer.key :=
  congrArg Node.key h

/-- The title of a layer is the tag of its element. -/
theorem tag_eq (h : node.IsElementOf layer) : node.tag = layer.title :=
  congrArg Node.tag h

/-- The kind of an element is told by the title of its layer and whether that is a leaf. -/
theorem kind_eq (h : node.IsElementOf layer) : node.kind = Layer.kind layer.title layer.leaf :=
  congrArg Node.kind h

/-- The element of a layer is no text. -/
theorem kind_ne_text (h : node.IsElementOf layer) : node.kind ≠ .text := by
  rw [h.kind_eq, Layer.kind]
  split <;> exact NodeKind.noConfusion

/-- The element of a layer has no explicit class. -/
theorem explicitClass?_eq (h : node.IsElementOf layer) : explicitClass? node = none := by
  rw [h]
  rfl

/-- The element of a layer declares nothing. -/
theorem declarations_eq (h : node.IsElementOf layer) : declarations node = [] := by
  rw [h]
  rfl

/-- The element of a layer makes no rule. -/
theorem ownRule?_eq (h : node.IsElementOf layer) : ownRule? node = none := by
  rw [ownRule?, h.explicitClass?_eq, h.declarations_eq]
  rfl

/-- In classes mode the only attribute of the element of a layer is the class of its key. -/
theorem attributes_eq (h : node.IsElementOf layer) {options : Options}
    (hmode : options.styleMode = .classes) :
    attributes options node = [(options.dialect.classAttribute, .quoted layer.key.className)] := by
  have hclass : class? options node = some layer.key.className := by
    rw [class?, h.explicitClass?_eq, hmode, h.key_eq]
  have hstyle : styleValue? options node = none := by
    rw [h]
    rfl
  rw [attributes, hclass, hstyle, h]
  rfl

/-- **In classes mode the element of a layer opens with the class of its key.** -/
theorem openingTag_eq (h : node.IsElementOf layer) {options : Options}
    (hmode : options.styleMode = .classes) :
    openingTag options node = layer.classTag options := by
  rw [openingTag, h.attributes_eq hmode, h.tag_eq, h.kind_eq, Layer.classTag, List.map_singleton,
    attributeText, Key.escapeAttribute_className]
  simp only [String.join_cons, String.join_nil, String.append_empty, String.append_assoc]

end Node.IsElementOf

/-- Whether all nodes of a forest that are not below a self-closing element are elements of given
layers. -/
def Forest.DrawnFrom (given : List Layer) (forest : Forest) : Prop :=
  ∀ node ∈ emitted forest, ∃ layer ∈ given, node.IsElementOf layer

namespace Forest.DrawnFrom

variable {given : List Layer} {forest : Forest}

/-- What is written as an element is the element of one of the layers. -/
theorem exists_layer (h : DrawnFrom given forest) {node : Node} (hnode : node ∈ elements forest) :
    ∃ layer ∈ given, node.IsElementOf layer :=
  h node (elements_subset_emitted forest hnode)

/-- No class is generated for two keys if the layers have none for two. -/
theorem oneKeyPerClass (h : DrawnFrom given forest)
    (hclasses : ∀ a ∈ given, ∀ b ∈ given, a.key.className = b.key.className → a.key = b.key) :
    OneKeyPerClass (elements forest) := by
  intro a ha b hb hclass
  obtain ⟨layer, hlayer, ha⟩ := h.exists_layer ha
  obtain ⟨other, hother, hb⟩ := h.exists_layer hb
  rw [ha.key_eq, hb.key_eq] at hclass ⊢
  exact hclasses layer hlayer other hother hclass

/-- **The style sheet of elements of layers is empty** if the layers have no class for two keys. -/
theorem styleSheet_eq (h : DrawnFrom given forest)
    (hclasses : ∀ a ∈ given, ∀ b ∈ given, a.key.className = b.key.className → a.key = b.key)
    (options : Options) : styleSheet options forest = .ok "" := by
  have hgenerated : generated (elements forest) = elements forest := by
    rw [generated, List.filter_eq_self]
    intro node hnode
    obtain ⟨layer, -, helement⟩ := h.exists_layer hnode
    rw [helement.explicitClass?_eq]
    rfl
  have hrules : rules forest = .ok [] := by
    rw [rules_eq_ok (by rw [hgenerated]; exact h.oneKeyPerClass hclasses), hgenerated]
    congr 1
    rw [List.filterMap_eq_nil_iff]
    intro node hnode
    obtain ⟨layer, -, helement⟩ := h.exists_layer (mem_of_mem_firstOfKeys hnode)
    exact helement.ownRule?_eq
  rw [styleSheet, hrules]
  cases options.styleMode <;> rfl

end Forest.DrawnFrom

/-! ## Views of layers -/

/-- The view of the element of a layer in classes mode, with views of its children: its only
attribute is the class of its key. -/
def Layer.classView (options : Options) (layer : Layer) (children : List View) : View :=
  let attributes := [(options.dialect.classAttribute, layer.key.className)]
  if kind layer.title layer.leaf = .single then .single layer.title attributes
  else .container layer.title attributes children

/-- A view shows layers: at every depth, all that it holds are views of elements of given layers in
classes mode. -/
inductive Markup.View.ShowsLayers (options : Options) (given : List Layer) : View → Prop where
  /-- The view of the element of a layer, with views below it that show layers. -/
  | element {layer : Layer} {children : List View} (hlayer : layer ∈ given)
      (hchildren : ∀ child ∈ children, child.ShowsLayers options given) :
      ShowsLayers options given (layer.classView options children)

variable {options : Options} {given : List Layer}

/-- A view that shows layers with names for titles is plain. -/
theorem Markup.View.ShowsLayers.isPlain {view : View} (h : view.ShowsLayers options given)
    (hnames : ∀ layer ∈ given, isName layer.title) : view.isPlain := by
  induction h with
  | @element layer children hlayer hchildren ih =>
    have hclass : isName options.dialect.classAttribute := by
      cases options.dialect <;> decide
    have hattribute : ∀ a ∈ [(options.dialect.classAttribute, layer.key.className)],
        isName a.1 := by
      intro a ha
      rwa [List.mem_singleton.1 ha]
    rw [classView]
    split
    · exact View.isPlain_single.2 ⟨hnames layer hlayer, hattribute⟩
    · exact View.isPlain_container.2
        ⟨hnames layer hlayer, hattribute, View.arePlain_iff.2 ih⟩

/-- A layer and its element have the same view. -/
theorem Node.IsElementOf.classView_eq {node : Node} {layer : Layer} (h : node.IsElementOf layer)
    (children : List View) :
    layer.classView options children =
      let attributes := [(options.dialect.classAttribute, node.key.className)]
      if node.kind = .single then .single node.tag attributes
      else .container node.tag attributes children := by
  rw [h.kind_eq, h.tag_eq, h.key_eq, classView]

/-- The element of a layer is written as its view, if what is below it is. -/
theorem Node.IsElementOf.nodeText_eq {node : Node} {layer : Layer} (h : node.IsElementOf layer)
    (hmode : options.styleMode = .classes) {children : List View}
    (hbelow : node.kind = .container → children.isEmpty = node.children.isEmpty ∧
      ∀ depth, forestText options depth node.children = viewsText options depth children)
    (depth : Nat) :
    nodeText options depth node = viewText options depth (layer.classView options children) := by
  have htag : openingTag options node = tagText (node.kind = .single) node.tag
      [(options.dialect.classAttribute, node.key.className)] := by
    rw [openingTag, h.attributes_eq hmode, h.key_eq, tagText]
    simp only [List.map_cons, List.map_nil, decide_eq_true_eq]
  rw [Markup.nodeText_eq, h.classView_eq, htag]
  cases hkind : node.kind with
  | text => exact absurd hkind h.kind_ne_text
  | single => rfl
  | container =>
    obtain ⟨hempty, htext⟩ := hbelow hkind
    show _ = viewText options depth (.container node.tag _ children)
    rw [viewText, hempty, htext]
    rfl

/-- **In classes mode the markup of elements of layers is what views say that show the layers**, and
nothing else: node by node, these are the views of the elements. -/
theorem Forest.DrawnFrom.exists_views {forest : Forest} (h : Forest.DrawnFrom given forest)
    (hmode : options.styleMode = .classes) :
    ∃ views : List View,
      (∀ depth, forestText options depth forest = viewsText options depth views) ∧
      (∀ view ∈ views, view.ShowsLayers options given) ∧
      List.Forall₂ (fun node view => ∀ layer : Layer, node.IsElementOf layer →
        ∃ children, view = layer.classView options children) forest views := by
  induction forest using Forest.induction with
  | nil => exact ⟨[], fun _ => rfl, List.forall_mem_nil _, .nil⟩
  | cons node forest ihc ihf =>
    obtain ⟨⟨layer, hlayer, helement⟩, hbelow, hrest⟩ := forall_mem_emitted_cons.1 h
    obtain ⟨views, htext, hshow, hviews⟩ := ihf hrest
    -- a self-closing element has no views below it, whatever nodes it has
    obtain ⟨children, hchildren, hshowBelow⟩ : ∃ children : List View,
        (node.kind = .container → children.isEmpty = node.children.isEmpty ∧
          ∀ depth, forestText options depth node.children = viewsText options depth children) ∧
        ∀ child ∈ children, child.ShowsLayers options given := by
      by_cases hsingle : node.kind = .single
      · refine ⟨[], fun hkind => ?_, List.forall_mem_nil _⟩
        exact NodeKind.noConfusion (hsingle.symm.trans hkind)
      · obtain ⟨children, htextBelow, hshowBelow, hviewsBelow⟩ := ihc (hbelow hsingle)
        have hempty : children.isEmpty = node.children.isEmpty := by
          rw [Bool.eq_iff_iff, List.isEmpty_iff_length_eq_zero, List.isEmpty_iff_length_eq_zero,
            hviewsBelow.length_eq]
        exact ⟨children, fun _ => ⟨hempty, htextBelow⟩, hshowBelow⟩
    refine ⟨layer.classView options children :: views, fun depth => ?_,
      List.forall_mem_cons.2 ⟨.element hlayer hshowBelow, hshow⟩,
      .cons (fun other hother => ?_) hviews⟩
    · rw [forestText_cons, helement.nodeText_eq hmode hchildren, htext, viewsText]
    · exact ⟨children, (helement.classView_eq children).trans (hother.classView_eq children).symm⟩

/-- Views that show layers with names for titles are read back from their markup. -/
theorem eq_of_viewsText_eq {views others : List View}
    (hviews : ∀ view ∈ views, view.ShowsLayers options given)
    (hnames : ∀ layer ∈ given, isName layer.title) (hplain : View.arePlain others)
    (h : viewsText options 0 others = viewsText options 0 views) : others = views := by
  have hplainViews : View.arePlain views :=
    View.arePlain_iff.2 fun view hview => (hviews view hview).isPlain hnames
  have hchars : (viewsText options 0 others).toList ++ [] =
      (viewsText options 0 views).toList ++ [] := by rw [h]
  exact (viewsText_append_inj hplain hplainViews rfl rfl hchars).1

/-! ## What is rendered and remembered -/

/-- Whether all elements that are remembered are those of given layers. -/
def Memory.DrawnFrom (given : List Layer) (memory : Memory) : Prop :=
  ∀ shape known, memory shape = some known → Forest.DrawnFrom given known

namespace Memory

variable {memory : Memory}

/-- Children drawn from the layers may be remembered. -/
theorem DrawnFrom.remember (h : memory.DrawnFrom given) (shape : Shape) {children : Forest}
    (hchildren : Forest.DrawnFrom given children) :
    (memory.remember shape children).DrawnFrom given := by
  intro other known hknown
  by_cases heq : other = shape
  · rw [heq, remember_self] at hknown
    rwa [← Option.some.inj hknown]
  · rw [remember_of_ne heq] at hknown
    exact h other known hknown

/-- A layer is rendered as its element, whatever is remembered. -/
theorem render_isElementOf (memory : Memory) (layer : Layer) :
    (memory.render layer).1.IsElementOf layer := by
  cases hleaf : layer.leaf with
  | true =>
    rw [render_of_leaf memory hleaf, Node.IsElementOf, hleaf]
    rfl
  | false =>
    cases hknown : memory layer.shape with
    | some known =>
      rw [render_of_eq_some hleaf hknown, Node.IsElementOf, hleaf]
    | none =>
      rw [render_of_eq_none hleaf hknown, Node.IsElementOf, hleaf]

/-- One layer after the other is rendered as its element. -/
theorem renderAll_areElementsOf (memory : Memory) (layers : List Layer) :
    List.Forall₂ (fun layer node => node.IsElementOf layer) layers
      (memory.renderAll layers).1 := by
  induction layers generalizing memory with
  | nil => exact .nil
  | cons layer layers ih => exact .cons (render_isElementOf memory layer) (ih _)

/-- Below a layer are elements that are remembered or that are rendered for the layers below it. -/
theorem render_drawnFrom {layer : Layer} (hmemory : memory.DrawnFrom given)
    (hbelow : layer.leaf = false → Forest.DrawnFrom given (memory.renderAll layer.children).1 ∧
      (memory.renderAll layer.children).2.DrawnFrom given) :
    Forest.DrawnFrom given (memory.render layer).1.children ∧
      (memory.render layer).2.DrawnFrom given := by
  cases hleaf : layer.leaf with
  | true =>
    rw [render_of_leaf memory hleaf]
    exact ⟨List.forall_mem_nil _, hmemory⟩
  | false =>
    cases hknown : memory layer.shape with
    | some known =>
      rw [render_of_eq_some hleaf hknown]
      exact ⟨hmemory layer.shape known hknown, hmemory⟩
    | none =>
      obtain ⟨hchildren, hafter⟩ := hbelow hleaf
      rw [render_of_eq_none hleaf hknown]
      exact ⟨hchildren, hafter.remember layer.shape hchildren⟩

/-- **What is rendered and what is remembered after it are elements of the layers rendered**, if
what was remembered before is. -/
theorem renderAll_drawnFrom {layers : List Layer} (hlayers : partsAll layers ⊆ given)
    (hmemory : memory.DrawnFrom given) :
    Forest.DrawnFrom given (memory.renderAll layers).1 ∧
      (memory.renderAll layers).2.DrawnFrom given := by
  induction layers using Layer.induction generalizing memory with
  | nil => exact ⟨List.forall_mem_nil _, hmemory⟩
  | cons layer layers ihc ihs =>
    rw [partsAll, parts_eq, List.append_subset, List.cons_subset] at hlayers
    obtain ⟨⟨hlayer, hparts⟩, hrest⟩ := hlayers
    have hbelow : layer.leaf = false →
        Forest.DrawnFrom given (memory.renderAll layer.children).1 ∧
          (memory.renderAll layer.children).2.DrawnFrom given := by
      intro hleaf
      rw [hleaf] at hparts
      exact ihc hparts hmemory
    obtain ⟨hchildren, hafter⟩ := render_drawnFrom hmemory hbelow
    obtain ⟨hforest, hstop⟩ := ihs hrest hafter
    exact ⟨forall_mem_emitted_cons.2 ⟨⟨layer, hlayer, render_isElementOf memory layer⟩,
      fun _ => hchildren, hforest⟩, hstop⟩

end Memory

namespace Renderer

variable {layers : List Layer}

/-- A new renderer returns elements of the parts of the layers, and the element of each layer in its
place. -/
theorem renderAll_new (layers : List Layer) :
    Forest.DrawnFrom (partsAll layers) (({} : Renderer).renderAll layers).1 ∧
      List.Forall₂ (fun layer node => node.IsElementOf layer) layers
        (({} : Renderer).renderAll layers).1 := by
  obtain ⟨hgrounded, hempty⟩ := memory_of_fresh (.inl rfl)
  have hnothing : (memory {}).DrawnFrom (partsAll layers) := by
    rw [hempty]
    exact nofun
  rw [(renderAll_follows hgrounded layers).returned]
  exact ⟨(Memory.renderAll_drawnFrom (List.Subset.refl _) hnothing).1,
    Memory.renderAll_areElementsOf _ layers⟩

/-- What a renderer returns for layers without a blank title can be written. -/
theorem Reachable.fault?_perform {r : Renderer} (hr : r.Reachable) (call : RenderCall)
    (htitles : ∀ layer ∈ partsAll call.layers, Text.isBlankText layer.title = false) :
    Forest.fault? (r.perform call).1 = none := by
  have hfind : (partsAll call.layers).find? (fun layer => Text.isBlankText layer.title) = none := by
    simpa using htitles
  have hplain : Forest.fault? (toForest call.layers) = none := by
    rw [Layer.fault?_toForest, hfind, Option.map_none]
  have hkeyless := congrArg Forest.fault? (hr.keyless_perform call)
  rw [Forest.fault?_keyless, Forest.fault?_keyless, hplain, Option.map_none] at hkeyless
  exact Option.map_eq_none_iff.1 hkeyless

/-- What a list stands for, member by member, stands in turn for what that list stands for. -/
theorem forall₂_trans {α β γ : Type} {r : α → β → Prop} {t : β → γ → Prop} {as : List α}
    {bs : List β} {cs : List γ} (h : List.Forall₂ r as bs) (h' : List.Forall₂ t bs cs) :
    List.Forall₂ (fun a c => ∃ b, r a b ∧ t b c) as cs := by
  induction h generalizing cs with
  | nil =>
    cases h'
    exact .nil
  | cons hab _ ih =>
    cases h' with
    | cons hbc hrest => exact .cons ⟨_, hab, hbc⟩ (ih hrest)

/-- **Keys from memory never clash.** If no title of a layer that is rendered is blank, and
different keys of these layers have different classes, then what a new renderer returns has a page
under all options, and its style sheet is empty. In classes mode every element opens with the class
of a key of these layers, and nothing else, and the nodes at the top with those of their own layers.
The text of the page is then what views say of which each has one attribute, the class of the key of
such a layer, and those at the top the class of their own layer. If the titles are names, no other
views that are plain have this text, so these classes are all that can be read from the page. -/
theorem shared_keys_never_clash
    (htitles : ∀ layer ∈ partsAll layers, Text.isBlankText layer.title = false)
    (hclasses : ∀ a ∈ partsAll layers, ∀ b ∈ partsAll layers,
      a.key.className = b.key.className → a.key = b.key) :
    let rendered := (({} : Renderer).renderAll layers).1
    (∀ options, page options rendered = .ok (forestText options 0 rendered) ∧
      styleSheet options rendered = .ok "") ∧
    ∀ options : Options, options.styleMode = .classes →
      (∀ node ∈ elements rendered, ∃ layer ∈ partsAll layers,
        openingTag options node = layer.classTag options) ∧
      List.Forall₂ (fun layer node => openingTag options node = layer.classTag options) layers
        rendered ∧
      ∃ views : List View, page options rendered = .ok (viewsText options 0 views) ∧
        (∀ view ∈ views, view.ShowsLayers options (partsAll layers)) ∧
        List.Forall₂ (fun layer view => ∃ children, view = layer.classView options children) layers
          views ∧
        ((∀ layer ∈ partsAll layers, isName layer.title) → ∀ others, View.arePlain others →
          page options rendered = .ok (viewsText options 0 others) → others = views) := by
  intro rendered
  -- every element comes from some layer, and the roots come from the layers in order
  obtain ⟨hdrawn, hroots⟩ := renderAll_new layers
  have hfault : Forest.fault? rendered = none :=
    Reachable.fault?_perform .new (.all layers) htitles
  -- no element declares anything, so the sheet is empty whatever the options say of it
  have hpage : ∀ options, page options rendered = .ok (forestText options 0 rendered) ∧
      styleSheet options rendered = .ok "" := by
    intro options
    have hsheet := hdrawn.styleSheet_eq hclasses options
    rw [page_eq_of_styleSheet_eq_ok hsheet, hfault]
    dsimp only
    rw [ite_self, String.empty_append]
    exact ⟨rfl, hsheet⟩
  refine ⟨hpage, fun options hmode => ⟨fun node hnode => ?_, ?_, ?_⟩⟩
  · obtain ⟨layer, hlayer, helement⟩ := hdrawn.exists_layer hnode
    exact ⟨layer, hlayer, helement.openingTag_eq hmode⟩
  · exact hroots.imp fun layer node helement => helement.openingTag_eq hmode
  · obtain ⟨views, htext, hshow, hviews⟩ := hdrawn.exists_views hmode
    have hviewsPage : page options rendered = .ok (viewsText options 0 views) := by
      rw [(hpage options).1, htext]
    refine ⟨views, hviewsPage, hshow, ?_, fun hnames others hplain hothers => ?_⟩
    · -- the nodes in between are left out: a layer, its node, the view of the node
      refine (forall₂_trans hroots hviews).imp ?_
      rintro layer view ⟨node, helement, hview⟩
      exact hview layer helement
    · exact eq_of_viewsText_eq hshow hnames hplain
        (Except.ok.inj (hothers.symm.trans hviewsPage))

/-- Two lists of the same shape: the second has its own class, and below it the keys come again. The
titles are names, so the views are all that can be read from the page. -/
theorem shared_keys_never_clash_of_marked_items :
    let layers := [markedItem 1 2 3, markedItem 4 5 6]
    let rendered := (({} : Renderer).renderAll layers).1
    (∀ layer ∈ partsAll layers, Text.isBlankText layer.title = false) ∧
    (∀ a ∈ partsAll layers, ∀ b ∈ partsAll layers,
      a.key.className = b.key.className → a.key = b.key) ∧
    ¬(Forest.keys rendered).Nodup ∧
    (∀ layer ∈ partsAll layers, isName layer.title) ∧
    (∀ options, page options rendered = .ok (forestText options 0 rendered) ∧
      styleSheet options rendered = .ok "") ∧
    ∀ options : Options, options.styleMode = .classes →
      (∀ node ∈ elements rendered, ∃ layer ∈ partsAll layers,
        openingTag options node = layer.classTag options) ∧
      List.Forall₂ (fun layer node => openingTag options node = layer.classTag options) layers
        rendered ∧
      ∃ views : List View, page options rendered = .ok (viewsText options 0 views) ∧
        (∀ view ∈ views, view.ShowsLayers options (partsAll layers)) ∧
        List.Forall₂ (fun layer view => ∃ children, view = layer.classView options children) layers
          views ∧
        ∀ others, View.arePlain others →
          page options rendered = .ok (viewsText options 0 others) → others = views := by
  intro layers rendered
  have htitles : ∀ layer ∈ partsAll layers, Text.isBlankText layer.title = false := by decide
  have hclasses : ∀ a ∈ partsAll layers, ∀ b ∈ partsAll layers,
      a.key.className = b.key.className → a.key = b.key := by
    decide
  have hrepeated : ¬(Forest.keys rendered).Nodup := by decide
  have hnames : ∀ layer ∈ partsAll layers, isName layer.title := by decide
  obtain ⟨hpage, hmode⟩ := shared_keys_never_clash htitles hclasses
  refine ⟨htitles, hclasses, hrepeated, hnames, hpage, fun options hclassMode => ?_⟩
  obtain ⟨helements, hroots, views, htext, hshow, hviews, hread⟩ := hmode options hclassMode
  exact ⟨helements, hroots, views, htext, hshow, hviews, hread hnames⟩

end Renderer

end PageTree
