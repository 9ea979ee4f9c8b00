import PageTree.Markup.Page
import PageTree.Proofs.Delimited
import PageTree.Proofs.Escape
import PageTree.Proofs.Markup.Rules
import PageTree.Proofs.StyleText

/-! # Pages of merged nodes

A merge keeps old properties that agree with the edited ones, and so the order in which an agreeing
style was written before. The markup of matching forests differs in style attributes only
(**`Forest.Matches.forestText_eq`**), and these can be read off it
(**`Forest.Matches.forestText_append_inj`**). Main statement: `page_merge_eq_iff`, a merged node
is written like the edited copy, under all options, exactly when what is written of the styles of
their elements is the same in the same order, or neither can be written. -/

namespace PageTree

open ObjectLiteral

namespace Markup

/-! ## What is written of a style -/

/-- What is written of the style of a node: the declarations, and the entries of the object
literal. -/
def writtenStyle (node : Node) : List Declaration × List String :=
  (declarations node, ((effectiveStyle? node).map Style.objectEntries).getD [])

/-- The style attribute of a style: the object literal in inline mode of that dialect, otherwise the
declarations. -/
def valueOfStyle (options : Options) (s : Style) : AttributeValue :=
  if options.styleMode = .inline ∧ options.dialect = .jsx then .object s.objectText
  else .quoted s.inlineText

/-- A style without a value that can be written is not written at all, and another one is written
under all options. -/
theorem writtenStyle_cases (node : Node) :
    (writtenStyle node = ([], []) ∧ ∀ options, styleValue? options node = none) ∨
      ∃ s : Style, s.objectEntries ≠ [] ∧ writtenStyle node = (s.declarations, s.objectEntries) ∧
        ∀ options, styleValue? options node = some (valueOfStyle options s) := by
  simp only [writtenStyle, declarations, styleValue?]
  cases effectiveStyle? node with
  | none => exact .inl ⟨rfl, fun _ => rfl⟩
  | some s =>
    simp only [Option.bind_some, Option.map_some, Option.getD_some, Style.hasValid_iff]
    by_cases hwritten : s.written = []
    · refine .inl ⟨?_, fun _ => if_neg (not_not.2 hwritten)⟩
      rw [Style.declarations_eq, objectEntries_eq, hwritten]
      rfl
    · refine .inr ⟨s, ?_, rfl, fun options => ?_⟩
      · rw [objectEntries_eq]
        exact mt List.map_eq_nil_iff.1 hwritten
      · rw [if_pos hwritten, valueOfStyle]
        cases options.styleMode <;> cases options.dialect <;> rfl

/-- Object literals of styles with the same entries are the same, and so are lines of the same
declarations. -/
theorem valueOfStyle_eq {s t : Style}
    (h : (s.declarations, s.objectEntries) = (t.declarations, t.objectEntries))
    (options : Options) : valueOfStyle options s = valueOfStyle options t := by
  obtain ⟨hdeclarations, hentries⟩ := Prod.mk.inj h
  rw [valueOfStyle, valueOfStyle, Style.objectText, Style.objectText, Style.inlineText,
    Style.inlineText, hdeclarations, hentries]

/-- The style attribute depends on what is written of the style only. -/
theorem styleValue?_eq_of_writtenStyle_eq {node other : Node}
    (h : writtenStyle node = writtenStyle other) (options : Options) :
    styleValue? options node = styleValue? options other := by
  rcases writtenStyle_cases node with ⟨hnode, hvalue⟩ | ⟨s, hs, hnode, hvalue⟩
  · rcases writtenStyle_cases other with ⟨-, hvalue'⟩ | ⟨t, ht, hother, -⟩
    · rw [hvalue, hvalue']
    · rw [hnode, hother] at h
      exact absurd (Prod.mk.inj h).2.symm ht
  · rcases writtenStyle_cases other with ⟨hother, -⟩ | ⟨t, -, hother, hvalue'⟩
    · rw [hnode, hother] at h
      exact absurd (Prod.mk.inj h).2 hs
    · rw [hnode, hother] at h
      rw [hvalue, hvalue', valueOfStyle_eq h]

/-- What is written of a style can be told from the style attributes of both dialects. -/
theorem writtenStyle_eq_of_styleValue?_eq {node other : Node}
    (hhtml : styleValue? {} node = styleValue? {} other)
    (hjsx : styleValue? { dialect := .jsx } node = styleValue? { dialect := .jsx } other) :
    writtenStyle node = writtenStyle other := by
  rcases writtenStyle_cases node with ⟨hnode, hvalue⟩ | ⟨s, -, hnode, hvalue⟩
  · rcases writtenStyle_cases other with ⟨hother, -⟩ | ⟨t, -, -, hvalue'⟩
    · rw [hnode, hother]
    · rw [hvalue, hvalue'] at hhtml
      contradiction
  · rcases writtenStyle_cases other with ⟨-, hvalue'⟩ | ⟨t, -, hother, hvalue'⟩
    · rw [hvalue, hvalue'] at hhtml
      contradiction
    · rw [hvalue, hvalue'] at hhtml hjsx
      have hinline : s.inlineText = t.inlineText :=
        AttributeValue.quoted.inj (Option.some.inj hhtml)
      have hliteral : s.objectText = t.objectText :=
        AttributeValue.object.inj (Option.some.inj hjsx)
      have hchars : s.objectText.toList ++ [] = t.objectText.toList ++ [] := by rw [hliteral]
      have hshown := (objectText_append_inj hchars).1
      rw [hnode, hother, Style.declarations_eq_of_texts_eq hshown hinline,
        Style.objectEntries_eq_map_shownEntries, Style.objectEntries_eq_map_shownEntries, hshown]

/-! ## Opening tags -/

/-- The attributes of a node in front of its style. -/
def frontAttributes (options : Options) (node : Node) : List (String × AttributeValue) :=
  let props := node.props.getD {}
  (props.id.map fun id => ("id", .quoted id)).toList ++
    ((class? options node).map fun c => (options.dialect.classAttribute, .quoted c)).toList ++
    props.attributes.map fun a => (a.name, .quoted a.value)

/-- The text of a style attribute. -/
def styleText (value? : Option AttributeValue) : String :=
  String.join ((value?.map fun value => ("style", value)).toList.map attributeText)

/-- The end of an opening tag. -/
def tagEnd (node : Node) : String := if node.kind = .single then " />" else ">"

/-- An opening tag is written from its name on, the style attribute last. -/
theorem openingTag_eq (options : Options) (node : Node) :
    openingTag options node =
      "<" ++ (node.tag ++ (String.join ((frontAttributes options node).map attributeText) ++
        (styleText (styleValue? options node) ++ tagEnd node))) := by
  have hattributes : attributes options node = frontAttributes options node ++
      ((styleValue? options node).map fun value => ("style", value)).toList := rfl
  rw [openingTag, hattributes, List.map_append, String.join_append, styleText, tagEnd]
  simp only [String.append_assoc]

/-- Nodes that match have the same attributes in front of their styles. -/
theorem frontAttributes_eq {node other : Node} (h : node.MatchesHead other) (options : Options) :
    frontAttributes options node = frontAttributes options other := by
  obtain ⟨-, hid, hattributes⟩ := h.props_eq
  have hclass : class? options node = class? options other := by
    rw [class?, class?, h.explicitClass?_eq, h.key]
  rw [frontAttributes, frontAttributes, hid, hattributes, hclass]

/-- The text of a style attribute ends where its value does: an object literal where its grammar
says, and a text between quotes at the first quote. -/
theorem attributeText_valueOfStyle_append_inj {options : Options} {s s' : Style} {x y : String}
    (h : attributeText ("style", valueOfStyle options s) ++ x =
      attributeText ("style", valueOfStyle options s') ++ y) :
    valueOfStyle options s = valueOfStyle options s' ∧ x = y := by
  have hchars := congrArg String.toList h
  rw [valueOfStyle, valueOfStyle] at hchars ⊢
  split
  next hliteral =>
    rw [if_pos hliteral, if_pos hliteral] at hchars
    simp only [attributeText, String.toList_append, List.append_assoc] at hchars
    have htexts := List.append_cancel_left (List.append_cancel_left
      (List.append_cancel_left hchars))
    obtain ⟨hshown, hrest⟩ := objectText_append_inj htexts
    rw [Style.objectText, Style.objectText, Style.objectEntries_eq_map_shownEntries,
      Style.objectEntries_eq_map_shownEntries, hshown]
    exact ⟨rfl, String.toList_inj.1 (List.append_cancel_left hrest)⟩
  next hquoted =>
    rw [if_neg hquoted, if_neg hquoted] at hchars
    simp only [attributeText, escapeAttribute, String.toList_append, String.toList_ofList,
      List.append_assoc] at hchars
    have htexts := List.append_cancel_left (List.append_cancel_left
      (List.append_cancel_left hchars))
    obtain ⟨hescaped, hrest⟩ := Text.append_cons_inj (quote_notMem_escapeChars _)
      (quote_notMem_escapeChars _) htexts
    rw [String.toList_inj.1 (escapeChars_inj hescaped)]
    exact ⟨rfl, String.toList_inj.1 hrest⟩

/-- Style attributes are told apart by their texts, whatever comes after the tag. -/
theorem styleText_append_inj {options : Options} {node other : Node} {close x y : String}
    (hclose : close = ">" ∨ close = " />")
    (h : styleText (styleValue? options node) ++ (close ++ x) =
      styleText (styleValue? options other) ++ (close ++ y)) :
    styleValue? options node = styleValue? options other ∧ x = y := by
  have hnone : styleText none = "" := rfl
  have hsome : ∀ value, styleText (some value) = attributeText ("style", value) := by
    intro value
    simp [styleText]
  -- the end of a tag is no start of an attribute
  have hend : ∀ (value : AttributeValue) (x y : String),
      close ++ x ≠ attributeText ("style", value) ++ (close ++ y) := by
    intro value x y heq
    have hchars := congrArg String.toList heq
    cases value <;> rcases hclose with rfl | rfl <;> simp [attributeText] at hchars
  rcases writtenStyle_cases node with ⟨-, hvalue⟩ | ⟨s, -, -, hvalue⟩
  · rcases writtenStyle_cases other with ⟨-, hvalue'⟩ | ⟨t, -, -, hvalue'⟩
    · rw [hvalue, hvalue', hnone, String.empty_append, String.empty_append,
        String.append_right_inj] at h
      rw [hvalue, hvalue']
      exact ⟨rfl, h⟩
    · rw [hvalue, hvalue', hnone, hsome, String.empty_append] at h
      exact absurd h (hend _ x y)
  · rcases writtenStyle_cases other with ⟨-, hvalue'⟩ | ⟨t, -, -, hvalue'⟩
    · rw [hvalue, hvalue', hnone, hsome, String.empty_append] at h
      exact absurd h.symm (hend _ y x)
    · rw [hvalue, hvalue', hsome, hsome] at h
      obtain ⟨hsame, hrest⟩ := attributeText_valueOfStyle_append_inj h
      rw [hvalue, hvalue', hsame]
      exact ⟨rfl, (String.append_right_inj _).1 hrest⟩

/-- Opening tags of nodes that match differ in the style only. -/
theorem openingTag_append_inj {options : Options} {node other : Node} {x y : String}
    (h : node.MatchesHead other)
    (heq : openingTag options node ++ x = openingTag options other ++ y) :
    styleValue? options node = styleValue? options other ∧ x = y := by
  have hclose : tagEnd node = ">" ∨ tagEnd node = " />" := by
    rw [tagEnd]
    split
    · exact .inr rfl
    · exact .inl rfl
  have hend : tagEnd other = tagEnd node := by rw [tagEnd, tagEnd, h.kind]
  rw [openingTag_eq, openingTag_eq, h.tag, frontAttributes_eq h, hend] at heq
  simp only [String.append_assoc, String.append_right_inj] at heq
  exact styleText_append_inj hclose heq

/-- Nodes that match have the same opening tag if their styles are written alike. -/
theorem openingTag_eq_of_matches {options : Options} {node other : Node}
    (h : node.MatchesHead other)
    (hstyle : styleValue? options node = styleValue? options other) :
    openingTag options node = openingTag options other := by
  rw [openingTag_eq, openingTag_eq, h.tag, frontAttributes_eq h, hstyle, tagEnd, tagEnd, h.kind]

/-! ## Lines -/

/-- The spaces in front of a line. -/
def indentText (options : Options) (depth : Nat) : String :=
  String.ofList (List.replicate (indentWidth options depth).toNat ' ')

/-- A line is its indent, its text and the end of the line. -/
theorem line_eq (options : Options) (depth : Nat) (text : String) :
    line options depth text = indentText options depth ++ (text ++ "\n") :=
  String.append_assoc

/-- The markup of a node by its kind; only a container has its children between its tags. -/
theorem nodeText_eq (options : Options) (depth : Nat) (node : Node) :
    nodeText options depth node =
      match node.kind with
      | .text => line options depth (escapeText (node.content.getD ""))
      | .single => line options depth (openingTag options node)
      | .container =>
        if node.children.isEmpty then
          line options depth (openingTag options node ++ closingTag node.tag)
        else
          line options depth (openingTag options node) ++
            forestText options (depth + 1) node.children ++
            line options depth (closingTag node.tag) := by
  cases node; rfl

/-- The markup of the first tree comes before that of the others. -/
theorem forestText_cons (options : Options) (depth : Nat) (node : Node) (forest : Forest) :
    forestText options depth (node :: forest) =
      nodeText options depth node ++ forestText options depth forest := by
  rw [forestText]

end Markup

/-! ## Matching forests -/

open Markup

namespace Forest

variable {options : Options} {forest others : Forest}

/-- The elements of matching forests with matching nodes in front agree in something exactly when
the nodes do, if they are elements, those below them, if they are containers, and the others. -/
theorem Matches.map_elements_cons_iff {α : Type} (f : Node → α) {node other : Node}
    (head : node.MatchesHead other) (hchildren : Forest.Matches node.children other.children) :
    (elements (node :: forest)).map f = (elements (other :: others)).map f ↔
      (node.kind ≠ .text → f node = f other) ∧
      (node.kind = .container →
        (elements node.children).map f = (elements other.children).map f) ∧
      (elements forest).map f = (elements others).map f := by
  have hlength := hchildren.forall₂_elements.length_eq
  rw [elements_cons, elements_cons, ← head.kind]
  cases node.kind with
  | container =>
    have hsplit : (elements node.children).map f ++ (elements forest).map f =
          (elements other.children).map f ++ (elements others).map f ↔
        (elements node.children).map f = (elements other.children).map f ∧
          (elements forest).map f = (elements others).map f :=
      ⟨fun h => List.append_inj h (by simp [hlength]), fun ⟨h, h'⟩ => by rw [h, h']⟩
    simp [hsplit]
  | single => simp
  | text => simp

/-- The markup of matching forests is the same if their styles are written alike. -/
theorem Matches.forestText_eq (h : Forest.Matches forest others) (depth : Nat)
    (hstyles : (elements forest).map (styleValue? options) =
      (elements others).map (styleValue? options)) :
    forestText options depth forest = forestText options depth others := by
  induction h generalizing depth with
  | nil => rfl
  | @cons node other forest others head hchildren _ ihc ihf =>
    obtain ⟨hnode, hbelow, hrest⟩ := (Matches.map_elements_cons_iff _ head hchildren).1 hstyles
    rw [forestText_cons, forestText_cons, ihf depth hrest, nodeText_eq, nodeText_eq, ← head.kind,
      head.content, ← hchildren.isEmpty_eq, head.tag]
    cases hkind : node.kind with
    | text => rfl
    | single =>
      rw [hkind] at hnode
      rw [openingTag_eq_of_matches head (hnode NodeKind.noConfusion)]
    | container =>
      rw [hkind] at hnode hbelow
      rw [openingTag_eq_of_matches head (hnode NodeKind.noConfusion), ihc (depth + 1) (hbelow rfl)]

/-- How the styles of matching forests are written can be told from their markup, whatever comes
after it. -/
theorem Matches.forestText_append_inj (h : Forest.Matches forest others) {depth : Nat}
    {x y : String}
    (heq : forestText options depth forest ++ x = forestText options depth others ++ y) :
    (elements forest).map (styleValue? options) = (elements others).map (styleValue? options) ∧
      x = y := by
  -- induction on how the forests match, with whatever comes after the markup: the texts of the
  -- first nodes are the same up to the style of the first tag, which ends in front of a common rest
  induction h generalizing depth x y with
  | nil =>
    rw [forestText_nil, String.empty_append, String.empty_append] at heq
    exact ⟨rfl, heq⟩
  | @cons node other forest others head hchildren _ ihc ihf =>
    rw [Matches.map_elements_cons_iff _ head hchildren]
    rw [forestText_cons, forestText_cons, nodeText_eq, nodeText_eq, ← head.kind, head.content,
      ← hchildren.isEmpty_eq, head.tag] at heq
    cases hkind : node.kind with
    | text =>
      simp only [hkind, String.append_assoc, String.append_right_inj] at heq
      obtain ⟨hrest, hend⟩ := ihf heq
      exact ⟨⟨fun h => absurd rfl h, nofun, hrest⟩, hend⟩
    | single =>
      simp only [hkind, line_eq, String.append_assoc, String.append_right_inj] at heq
      obtain ⟨hstyle, htail⟩ := openingTag_append_inj head heq
      obtain ⟨hrest, hend⟩ := ihf (String.append_right_inj _ |>.1 htail)
      exact ⟨⟨fun _ => hstyle, nofun, hrest⟩, hend⟩
    | container =>
      cases hempty : node.children.isEmpty with
      | true =>
        -- without children the closing tag is on the same line
        have hnil : node.children = [] := List.isEmpty_iff.1 hempty
        have hnil' : other.children = [] := by
          rw [hchildren.isEmpty_eq] at hempty
          exact List.isEmpty_iff.1 hempty
        simp only [hkind, hempty, if_true, line_eq, String.append_assoc,
          String.append_right_inj] at heq
        obtain ⟨hstyle, htail⟩ := openingTag_append_inj head heq
        simp only [String.append_right_inj] at htail
        obtain ⟨hrest, hend⟩ := ihf htail
        exact ⟨⟨fun _ => hstyle, fun _ => by rw [hnil, hnil'], hrest⟩, hend⟩
      | false =>
        -- the markup of the children comes before the closing tag and the other nodes
        simp only [hkind, hempty, Bool.false_eq_true, if_false, line_eq, String.append_assoc,
          String.append_right_inj] at heq
        obtain ⟨hstyle, htail⟩ := openingTag_append_inj head heq
        rw [String.append_right_inj] at htail
        obtain ⟨hbelow, htail⟩ := ihc htail
        simp only [String.append_right_inj] at htail
        obtain ⟨hrest, hend⟩ := ihf htail
        exact ⟨⟨fun _ => hstyle, fun _ => hbelow, hrest⟩, hend⟩

/-! ## Pages -/

/-- In inline mode a page is the markup of its forest. -/
theorem page_eq_of_inline (hfault : Forest.fault? forest = none)
    (hmode : options.styleMode = .inline) :
    page options forest = .ok (forestText options 0 forest) := by
  rw [page, hfault, styleSheet, hmode]
  show Except.ok ((if options.styleSheet then "" else "") ++ forestText options 0 forest) = _
  rw [ite_self, String.empty_append]

/-- Matching forests fail to be written for the same reasons. -/
theorem Matches.page_eq_error_iff (h : Forest.Matches forest others) (options : Options)
    (e : PageError) : page options forest = .error e ↔ page options others = .error e := by
  have hclash : ∀ (forest : Forest) (text : String → String),
      (((rules forest).map (sheetText options)).mapError PageError.classClash).map text =
          .error e ↔ ∃ clash, rules forest = .error clash ∧ e = .classClash clash := by
    intro forest text
    cases rules forest with
    | error clash =>
      show Except.error (PageError.classClash clash) = .error e ↔ _
      simp [eq_comm]
    | ok found =>
      show Except.ok _ = Except.error e ↔ _
      simp
  rw [page, page, h.fault?_eq]
  cases Forest.fault? others with
  | some fault => exact Iff.rfl
  | none =>
    rw [styleSheet, styleSheet]
    cases options.styleMode with
    | inline =>
      -- an empty sheet is there for both
      refine iff_of_false (fun hok => ?_) fun hok => ?_ <;> contradiction
    | classes => simp only [hclash, h.rules_eq_error_iff]

/-- Matching forests whose styles are written alike have the same page. -/
theorem Matches.page_eq (h : Forest.Matches forest others)
    (hstyles : (elements forest).map writtenStyle = (elements others).map writtenStyle)
    (options : Options) : page options forest = page options others := by
  have hvalues : (elements forest).map (styleValue? options) =
      (elements others).map (styleValue? options) := by
    have hlength := h.forall₂_elements.length_eq
    refine List.ext_getElem (by simp [hlength]) fun i hi hi' => ?_
    have hwritten := List.getElem_of_eq hstyles (by simpa using hi)
    rw [List.getElem_map, List.getElem_map] at hwritten ⊢
    exact styleValue?_eq_of_writtenStyle_eq hwritten options
  have hdeclarations : (elements forest).map declarations =
      (elements others).map declarations := by
    have hfirst := congrArg (List.map Prod.fst) hstyles
    rwa [List.map_map, List.map_map] at hfirst
  rw [page, page, h.fault?_eq, styleSheet, styleSheet, h.rules_eq hdeclarations,
    h.forestText_eq 0 hvalues]

/-- Matching forests have the same pages, under all options, exactly when neither can be written or
their styles are written alike. -/
theorem Matches.page_eq_iff (h : Forest.Matches forest others) :
    (∀ options, page options forest = page options others) ↔
      (Forest.fault? others).isSome = true ∨
        (elements forest).map writtenStyle = (elements others).map writtenStyle := by
  constructor
  · intro hpages
    cases hfault : Forest.fault? others with
    | some fault => exact .inl rfl
    | none =>
      have hfault' := h.fault?_eq.trans hfault
      -- in inline mode, what is written of the styles stands in the markup for either dialect
      have hinline : ∀ dialect : Dialect,
          (elements forest).map (styleValue? { dialect := dialect }) =
            (elements others).map (styleValue? { dialect := dialect }) := by
        intro dialect
        have hpage := hpages { dialect := dialect }
        rw [page_eq_of_inline hfault' rfl, page_eq_of_inline hfault rfl] at hpage
        exact (h.forestText_append_inj (congrArg (· ++ "") (Except.ok.inj hpage))).1
      have hhtml := hinline .html
      have hjsx := hinline .jsx
      refine .inr (List.ext_getElem (by simpa using congrArg List.length hhtml) fun i hi hi' => ?_)
      have hhtml' := List.getElem_of_eq hhtml (by simpa using hi)
      have hjsx' := List.getElem_of_eq hjsx (by simpa using hi)
      rw [List.getElem_map, List.getElem_map] at hhtml' hjsx' ⊢
      exact writtenStyle_eq_of_styleValue?_eq hhtml' hjsx'
  · rintro (hfault | hstyles) options
    · obtain ⟨fault, hfault⟩ := Option.isSome_iff_exists.1 hfault
      rw [page, page, h.fault?_eq, hfault]
    · exact h.page_eq hstyles options

end Forest

namespace Markup

/-- **Pages of a merged node.** An edited copy is merged into the node that is found under its key,
which is found there afterwards. That node alone fails to be written exactly when the copy alone
does, for the same reason; and it has the same page under all options exactly when the copy cannot
be written or what is written of the styles of their elements is the same in the same order. -/
theorem page_merge_eq_iff {edited : Node} {forest forest' : Forest}
    (h : Forest.mergeNode? edited forest = some forest') :
    ∃ current, Forest.find? edited.key forest = some current ∧
      Forest.find? edited.key forest' = some (current.merge edited) ∧
      (∀ options e,
        page options [current.merge edited] = .error e ↔ page options [edited] = .error e) ∧
      ((∀ options, page options [current.merge edited] = page options [edited]) ↔
        (Forest.fault? [edited]).isSome = true ∨
          (elements [current.merge edited]).map writtenStyle =
            (elements [edited]).map writtenStyle) := by
  cases hfind : Forest.find? edited.key forest with
  | none =>
    rw [Forest.mergeNode?, Forest.update?_eq_none _ hfind] at h
    contradiction
  | some current =>
    obtain ⟨spot, hleads, hkey, rfl⟩ := Forest.exists_spot_of_find? hfind
    rw [Forest.mergeNode?, hleads.update?_fill hkey] at h
    obtain rfl := Option.some.inj h
    have hmatches := Node.matches_merge hkey
    have hmerged : (current.merge edited).key = edited.key :=
      (Node.matchesHead_merge hkey).key
    exact ⟨current, rfl, hleads.find?_fill hmerged, hmatches.page_eq_error_iff,
      hmatches.page_eq_iff⟩

/-- A container with a color and a background. -/
def paintedNode (style : List (String × StyleValue)) : Node :=
  { kind := .container, key := .number 1, tag := "div"
    props := some { style := .ofList style } }

/-- A merge that changes a value: the page is that of the copy. -/
theorem page_merge_eq_of_change :
    let old := paintedNode [("color", .text "red"), ("background", .text "blue")]
    let edited := paintedNode [("background", .text "blue"), ("color", .text "green")]
    Forest.mergeNode? edited [old] = some [edited] ∧
      ∃ current, Forest.find? edited.key [old] = some current ∧
        Forest.find? edited.key [edited] = some (current.merge edited) ∧
        (∀ options e,
          page options [current.merge edited] = .error e ↔ page options [edited] = .error e) ∧
        ((∀ options, page options [current.merge edited] = page options [edited]) ↔
          (Forest.fault? [edited]).isSome = true ∨
            (elements [current.merge edited]).map writtenStyle =
              (elements [edited]).map writtenStyle) := by
  intro old edited
  have hmerge : Forest.mergeNode? edited [old] = some [edited] := by rfl
  exact ⟨hmerge, page_merge_eq_iff hmerge⟩

/-- A merge that only changes the order of a style: the page is not that of the copy. -/
theorem page_merge_ne_of_reorder :
    let old := paintedNode [("color", .text "red"), ("background", .text "blue")]
    let edited := paintedNode [("background", .text "blue"), ("color", .text "red")]
    Forest.mergeNode? edited [old] = some [old] ∧ Forest.find? edited.key [old] = some old ∧
      page {} [old] ≠ page {} [edited] := by
  refine ⟨rfl, rfl, ?_⟩
  decide

end Markup

end PageTree
