import PageTree.Proofs.Markup.Outcome
import PageTree.Proofs.Markup.Writer

/-! # Pages in parts

A page without a style sheet is put together from the pages of its parts. A part can be written if
the whole can (**`Markup.page_of_part`**), nodes side by side are written one after the other, and
nodes that stand deeper are written as by themselves, with a wider margin
(**`Markup.forestText_deeper`**). So what is around a place does not depend on what is in it, nor
what is in it on what is around (**`Spot.exists_forestText_fill`**). Main statement:
`page_compositional`. -/

namespace PageTree

open Markup

namespace Spot

/-- How deep the nodes in the open place are nested. -/
def depth : Spot → Nat
  | .top _ _ => 0
  | .under _ _ inner _ => inner.depth + 1

/-- Whether the nodes in the open place are written: only containers are above them. -/
def IsWritten : Spot → Prop
  | .top _ _ => True
  | .under _ parent inner _ => parent.kind = .container ∧ inner.IsWritten

end Spot

namespace Markup

variable {options : Options} {forest part : Forest}

/-! ## Margins -/

/-- The same options with a margin that is so many levels wider. -/
def Options.deeper (options : Options) (levels : Nat) : Options :=
  { options with baseIndent := indentWidth options levels }

/-- A root is indented by the margin alone. -/
theorem indentWidth_zero (options : Options) : indentWidth options 0 = options.baseIndent := by
  simp [indentWidth]

/-- A child of a root is indented by one step more. -/
theorem indentWidth_one (options : Options) :
    indentWidth options 1 = options.baseIndent + options.indentStep := by
  rw [indentWidth, UInt64.ofNat_one, UInt64.one_mul]

/-- A wider margin indents as so many levels do. -/
theorem indentWidth_deeper (options : Options) (levels depth : Nat) :
    indentWidth (options.deeper levels) depth = indentWidth options (levels + depth) := by
  simp only [indentWidth, Options.deeper]
  rw [UInt64.ofNat_add, UInt64.add_mul, UInt64.add_assoc]

/-- With a wider margin a line stands as so many levels deeper. -/
theorem line_deeper (options : Options) (levels depth : Nat) (text : String) :
    line (options.deeper levels) depth text = line options (levels + depth) text := by
  rw [line, line, indentWidth_deeper]

/-- The opening tag of an element does not depend on its margin. -/
theorem openingTag_deeper (options : Options) (levels : Nat) (node : Node) :
    openingTag (options.deeper levels) node = openingTag options node := rfl

/-- With a wider margin a forest is written as so many levels deeper. -/
theorem forestText_deeper (options : Options) (levels : Nat) (forest : Forest) (depth : Nat) :
    forestText (options.deeper levels) depth forest =
      forestText options (levels + depth) forest := by
  induction forest using Forest.induction generalizing depth with
  | nil => rfl
  | cons node forest ihc ihf =>
    have hnode : nodeText (options.deeper levels) depth node =
        nodeText options (levels + depth) node := by
      rw [nodeText_eq, nodeText_eq]
      simp only [line_deeper, openingTag_deeper, ihc, Nat.add_assoc]
    rw [forestText_cons, forestText_cons, hnode, ihf]

/-- A container with children is written around them. -/
theorem nodeText_of_container (options : Options) (depth : Nat) (node : Node)
    (hkind : node.kind = .container) (hchildren : node.children ≠ []) :
    nodeText options depth node = line options depth (openingTag options node) ++
      (forestText options (depth + 1) node.children ++
        line options depth (closingTag node.tag)) := by
  rw [nodeText_eq, hkind]
  dsimp only
  rw [if_neg (by simpa using hchildren), String.append_assoc]

/-! ## Parts that are written -/

/-- The nodes written of two forests stand one behind the other. -/
theorem emitted_append (f g : Forest) : emitted (f ++ g) = emitted f ++ emitted g := by
  induction f with
  | nil => rfl
  | cons node f ih =>
    rw [List.cons_append, emitted_cons, emitted_cons, ih, List.cons_append, List.append_assoc]

/-- What is below a container is among the nodes of a forest that has it. -/
theorem emitted_children_subset {node : Node} (hkind : node.kind = .container) :
    emitted node.children ⊆ emitted [node] := by
  rw [emitted_cons, hkind, if_neg NodeKind.noConfusion]
  exact fun other hother => List.mem_cons_of_mem _ (List.mem_append_left _ hother)

/-- A page without a style sheet is the markup of its forest. -/
theorem eq_forestText_of_page_eq_ok
    (hbare : options.styleMode = .inline ∨ options.styleSheet = false) {text : String}
    (h : page options forest = .ok text) : text = forestText options 0 forest := by
  have hrules : pageRules options forest = [] := by
    rw [pageRules]
    refine if_neg fun hboth => ?_
    rcases hbare with hinline | hnone
    · exact StyleMode.noConfusion (hinline.symm.trans hboth.1)
    · exact Bool.noConfusion (hnone.symm.trans hboth.2)
  rw [(eq_of_page_eq_ok h).2, hrules]
  exact String.empty_append

/-- **A part of a forest that can be written can be written**, also with another margin. -/
theorem page_of_part {options' : Options} {text : String} (h : page options forest = .ok text)
    (hmode : options'.styleMode = options.styleMode)
    (hbare : options'.styleMode = .inline ∨ options'.styleSheet = false)
    (hpart : emitted part ⊆ emitted forest) :
    page options' part = .ok (forestText options' 0 part) := by
  have hforest := (eq_of_page_eq_ok h).1
  have hfault : Forest.fault? part = none :=
    Forest.fault?_eq_none_iff.2 fun node hnode =>
      Forest.fault?_eq_none_iff.1 hforest node (hpart hnode)
  have howners : emittedOwners part ⊆ emittedOwners forest := List.filter_subset _ hpart
  rcases page_cases options' hfault with ⟨-, text', hpage⟩ | ⟨⟨hclasses, hclash⟩, -⟩
  · rw [hpage, eq_forestText_of_page_eq_ok hbare hpage]
  · -- keys that clash in a part do so in the whole
    obtain ⟨a, ha, b, hb, hkeys⟩ := hclash
    rcases page_cases options hforest with ⟨hnone, -⟩ | ⟨-, clash, -, herror⟩
    · exact absurd ⟨hmode ▸ hclasses, a, howners ha, b, howners hb, hkeys⟩ hnone
    · rw [herror] at h
      contradiction

end Markup

/-! ## Places -/

namespace Spot

variable {spot : Spot}

/-- What is in a place that is written is among the nodes of the forest. -/
theorem emitted_subset_fill (h : spot.IsWritten) (nodes : Forest) :
    emitted nodes ⊆ emitted (spot.fill nodes) := by
  induction spot with
  | top left right =>
    rw [fill, emitted_append, emitted_append]
    exact fun node hnode => List.mem_append_right _ (List.mem_append_left _ hnode)
  | under left parent inner right ih =>
    rw [fill, emitted_append, emitted_cons, h.1, if_neg NodeKind.noConfusion]
    exact fun node hnode => List.mem_append_right _
      (List.mem_cons_of_mem _ (List.mem_append_left _ (ih h.2 hnode)))

/-- **What is written around a place does not depend on what is in it**, as long as something is. -/
theorem exists_forestText_fill (h : spot.IsWritten) (options : Options) (depth : Nat) :
    ∃ before after, ∀ nodes ≠ [], forestText options depth (spot.fill nodes) =
      before ++ (forestText options (depth + spot.depth) nodes ++ after) := by
  induction spot generalizing depth with
  | top left right =>
    refine ⟨forestText options depth left, forestText options depth right, fun nodes _ => ?_⟩
    rw [fill, forestText_append, forestText_append, Spot.depth, Nat.add_zero]
  | under left parent inner right ih =>
    obtain ⟨before, after, hinner⟩ := ih h.2 (depth + 1)
    refine ⟨forestText options depth left ++ (line options depth (openingTag options parent) ++
        before), after ++ (line options depth (closingTag parent.tag) ++
        forestText options depth right), fun nodes hnodes => ?_⟩
    have hchildren : inner.fill nodes ≠ [] := by
      cases inner <;> simp [fill, hnodes]
    have hparent : nodeText options depth { parent with children := inner.fill nodes } =
        line options depth (openingTag options parent) ++
          (forestText options (depth + 1) (inner.fill nodes) ++
            line options depth (closingTag parent.tag)) :=
      nodeText_of_container options depth _ h.1 hchildren
    rw [fill, forestText_append, forestText_cons, hparent, hinner nodes hnodes, Spot.depth,
      Nat.add_assoc, Nat.add_comm 1]
    simp only [String.append_assoc]

end Spot

namespace Markup

variable {options : Options}

/-- An element is written with its opening tag first, at the margin of its depth. -/
theorem exists_nodeText_eq (options : Options) (depth : Nat) {node : Node}
    (hkind : node.kind ≠ .text) :
    ∃ rest, nodeText options depth node =
      indentText options depth ++ (openingTag options node ++ rest) := by
  rw [nodeText_eq]
  cases hnode : node.kind with
  | text => exact absurd hnode hkind
  | single => exact ⟨"\n", line_eq options depth _⟩
  | container =>
    dsimp only
    split
    · exact ⟨closingTag node.tag ++ "\n", by simp only [line_eq, String.append_assoc]⟩
    · exact ⟨"\n" ++ (forestText options (depth + 1) node.children ++
        line options depth (closingTag node.tag)), by simp only [line_eq, String.append_assoc]⟩

/-- **Pages are put together from the pages of parts.** In inline mode or without style sheets in
pages, and written in place or not: the page of nodes side by side is that of the first ones and
then that of the others; the page of a container with children is its opening tag on a line, the
page of its children with a margin that is one step wider, and its closing tag on a line, both tags
at the margin. Wherever a node is written, what is written for it is its own page with a margin that
is as many steps wider as it is deep, between texts that do not depend on it; so the opening tag of
an element is the same everywhere. -/
theorem page_compositional (hbare : options.styleMode = .inline ∨ options.styleSheet = false) :
    let margin := String.ofList (List.replicate options.baseIndent.toNat ' ')
    (∀ forest, Writer.output (Writer.writePage options forest) = page options forest) ∧
    (∀ (f g : Forest) (text : String), page options (f ++ g) = .ok text →
      ∃ front back, page options f = .ok front ∧ page options g = .ok back ∧
        text = front ++ back) ∧
    (∀ (node : Node) (text : String), node.kind = .container → node.children ≠ [] →
      page options [node] = .ok text →
      ∃ inner, page { options with baseIndent := options.baseIndent + options.indentStep }
          node.children = .ok inner ∧
        text = margin ++ openingTag options node ++ "\n" ++ inner ++
          margin ++ closingTag node.tag ++ "\n") ∧
    ∀ spot : Spot, spot.IsWritten → ∃ before after, ∀ (node : Node) (text : String),
      page options (spot.fill [node]) = .ok text →
      ∃ own, page (options.deeper spot.depth) [node] = .ok own ∧ text = before ++ (own ++ after) ∧
        (node.kind ≠ .text → ∃ rest,
          own = indentText options spot.depth ++ (openingTag options node ++ rest)) := by
  intro margin
  refine ⟨fun forest => Writer.output_writePage options forest, fun f g text h => ?_,
    fun node text hkind hchildren h => ?_, fun spot hspot => ?_⟩
  · -- both parts can be written since all their nodes are in the whole
    have hparts := emitted_append f g
    refine ⟨_, _, page_of_part h rfl hbare ?_, page_of_part h rfl hbare ?_, ?_⟩
    · exact hparts ▸ List.subset_append_left _ _
    · exact hparts ▸ List.subset_append_right _ _
    · rw [eq_forestText_of_page_eq_ok hbare h, forestText_append]
  · -- the children are written one level deeper, which a wider margin says too
    have hwider : { options with baseIndent := options.baseIndent + options.indentStep } =
        options.deeper 1 := by
      rw [Options.deeper, indentWidth_one]
    have hmargin : margin = indentText options 0 := by
      rw [indentText, indentWidth_zero]
    rw [hwider, hmargin]
    refine ⟨_, page_of_part h rfl hbare (emitted_children_subset hkind), ?_⟩
    rw [eq_forestText_of_page_eq_ok hbare h, forestText_cons, forestText_nil, String.append_empty,
      nodeText_of_container options 0 node hkind hchildren, forestText_deeper, line_eq, line_eq]
    simp only [String.append_assoc]
  · -- what stands around the open place does not depend on the node put there
    obtain ⟨before, after, hfill⟩ := spot.exists_forestText_fill hspot options 0
    refine ⟨before, after, fun node text h => ⟨_, page_of_part h rfl hbare ?_, ?_, fun hkind => ?_⟩⟩
    · exact spot.emitted_subset_fill hspot [node]
    · rw [eq_forestText_of_page_eq_ok hbare h, hfill [node] (List.cons_ne_nil _ _),
        forestText_deeper, Nat.zero_add, Nat.add_zero]
    · rw [forestText_deeper, Nat.add_zero, forestText_cons, forestText_nil, String.append_empty]
      exact exists_nodeText_eq options spot.depth hkind

/-- A list behind a text, in classes mode without a style sheet and with a margin of one space. -/
theorem page_compositional_of_list :
    let options : Options := { baseIndent := 1, styleMode := .classes, styleSheet := false }
    let margin := String.ofList (List.replicate options.baseIndent.toNat ' ')
    let item := Node.container "li" (.number 2)
    let list := Node.container "ul" (.number 1) |>.withChildren [item]
    let text := Node.text "a" (.number 3)
    let spot : Spot := .under [text] list (.top [] []) []
    ((options.styleMode = .inline ∨ options.styleSheet = false) ∧ spot.IsWritten ∧
      spot.fill [item] = [text] ++ [list]) ∧
    (∃ front back, page options [text] = .ok front ∧ page options [list] = .ok back ∧
      page options ([text] ++ [list]) = .ok (front ++ back)) ∧
    (∃ inner, page { options with baseIndent := options.baseIndent + options.indentStep }
        list.children = .ok inner ∧
      page options [list] = .ok (margin ++ openingTag options list ++ "\n" ++ inner ++
        margin ++ closingTag list.tag ++ "\n")) ∧
    ∃ before own after, page (options.deeper spot.depth) [item] = .ok own ∧
      page options (spot.fill [item]) = .ok (before ++ (own ++ after)) ∧
      ∃ rest, own = indentText options spot.depth ++ (openingTag options item ++ rest) := by
  intro options margin item list text spot
  have hbare : options.styleMode = .inline ∨ options.styleSheet = false := .inr rfl
  have hspot : spot.IsWritten := ⟨rfl, trivial⟩
  have hfill : spot.fill [item] = [text] ++ [list] := rfl
  obtain ⟨whole, hpage⟩ : ∃ whole, page options ([text] ++ [list]) = .ok whole := ⟨_, rfl⟩
  obtain ⟨part, hlist⟩ : ∃ part, page options [list] = .ok part := ⟨_, rfl⟩
  obtain ⟨-, happend, hcontainer, hplace⟩ := page_compositional hbare
  refine ⟨⟨hbare, hspot, hfill⟩, ?_, ?_, ?_⟩
  · obtain ⟨front, back, hfront, hback, heq⟩ := happend _ _ _ hpage
    exact ⟨front, back, hfront, hback, heq ▸ hpage⟩
  · obtain ⟨inner, hinner, heq⟩ := hcontainer list _ rfl (List.cons_ne_nil _ _) hlist
    exact ⟨inner, hinner, heq ▸ hlist⟩
  · obtain ⟨before, after, hown⟩ := hplace spot hspot
    obtain ⟨own, hpart, heq, htag⟩ := hown item _ (hfill ▸ hpage)
    exact ⟨before, own, after, hpart, heq ▸ hfill ▸ hpage, htag nofun⟩

end Markup

end PageTree
