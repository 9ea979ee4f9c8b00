import Mathlib.Algebra.GroupWithZero.Nat
import PageTree.Proofs.ClassName
import PageTree.Proofs.Markup.Owners
import PageTree.Proofs.Markup.View

/-! # Where tags open

How often a page has the character that opens a tag. What is written between tags and in attributes
is escaped (**`Markup.openings_escapeText`**, **`Markup.openings_escapeAttribute`**) and generated
classes have letters and digits only, so the markup of a forest opens as many tags as its elements
have (**`Markup.openings_forestText`**). The declarations of a style sheet are not escaped. Main
statement: `openings_page`, a page opens the tags of its elements and of its style sheet, and one
more wherever the character stands in a declaration of the sheet. -/

namespace PageTree.Markup

/-! ## Texts -/

/-- How often a text has the character that opens a tag. -/
def openings (text : String) : Nat := text.toList.count '<'

/-- The openings of two texts add up. -/
@[simp] theorem openings_append (s t : String) :
    openings (s ++ t) = openings s + openings t := by
  simp [openings]

/-- A text opens nothing exactly when it does not have the character. -/
theorem openings_eq_zero_iff {text : String} : openings text = 0 ↔ '<' ∉ text.toList :=
  List.count_eq_zero

/-- The openings of joined texts add up. -/
theorem openings_join (texts : List String) :
    openings (String.join texts) = (texts.map openings).sum := by
  induction texts with
  | nil => rfl
  | cons text texts ih => rw [String.join_cons, openings_append, ih, List.map_cons, List.sum_cons]

/-- The spaces in front of a line and its end open nothing. -/
theorem openings_line (options : Options) (depth : Nat) (text : String) :
    openings (line options depth text) = openings text := by
  have hend : openings "\n" = 0 := rfl
  have hindent : openings (String.ofList (List.replicate (indentWidth options depth).toNat ' ')) =
      0 := by
    rw [openings_eq_zero_iff, String.toList_ofList]
    simp [List.mem_replicate]
  rw [line, openings_append, openings_append, hindent, hend, Nat.zero_add, Nat.add_zero]

/-- An escaped text opens nothing. -/
@[simp] theorem openings_escapeText (text : String) : openings (escapeText text) = 0 := by
  rw [openings_eq_zero_iff, escapeText, String.toList_ofList]
  exact lt_notMem_escapeChars false _

/-- An escaped attribute value opens nothing. -/
@[simp] theorem openings_escapeAttribute (text : String) :
    openings (escapeAttribute text) = 0 := by
  rw [openings_eq_zero_iff, escapeAttribute, String.toList_ofList]
  exact lt_notMem_escapeChars true _

/-- A class name opens nothing. -/
@[simp] theorem openings_className (key : Key) : openings key.className = 0 := by
  rw [openings_eq_zero_iff]
  intro h
  exact absurd (Key.isClassChar_of_mem_className h) (by decide)

/-! ## Elements -/

/-- Neither the tag of a node nor the name of a free attribute has the character that opens a
tag. -/
def HasPlainNames (node : Node) : Prop :=
  '<' ∉ node.tag.toList ∧ ∀ a ∈ (node.props.getD {}).attributes, '<' ∉ a.name.toList

instance (node : Node) : Decidable (HasPlainNames node) := inferInstanceAs (Decidable (_ ∧ _))

/-- How many tags the elements of a forest have: one if self-closing, two if a container. -/
def tagCount (forest : Forest) : Nat :=
  (elements forest).countP (fun node => node.kind == .single) +
    2 * (elements forest).countP (fun node => node.kind == .container)

variable {options : Options}

/-- The names of attributes are fixed ones and those of the free attributes. -/
theorem name_of_mem_attributeValues {node : Node} {a : String × String}
    (h : a ∈ attributeValues options node) :
    a.1 = "id" ∨ a.1 = "class" ∨ a.1 = "style" ∨
      ∃ free ∈ (node.props.getD {}).attributes, a.1 = free.name := by
  simp only [attributeValues, List.mem_append, Option.mem_toList, Option.map_eq_some_iff,
    List.mem_map] at h
  rcases h with ((⟨id, -, rfl⟩ | ⟨c, -, rfl⟩) | ⟨free, hfree, rfl⟩) | ⟨text, -, rfl⟩
  · exact .inl rfl
  · exact .inr (.inl rfl)
  · exact .inr (.inr (.inr ⟨free, hfree, rfl⟩))
  · exact .inr (.inr (.inl rfl))

/-- An opening tag opens one tag, whatever the values of its attributes are. -/
theorem openings_openingTag (hdialect : options.dialect = .html) {node : Node}
    (hnames : HasPlainNames node) : openings (openingTag options node) = 1 := by
  have hattributes : ((attributeValues options node).map fun a =>
      openings (attributeText (a.1, .quoted a.2))).sum = 0 := by
    refine List.sum_eq_zero_iff_forall_eq_nat.2 fun count hcount => ?_
    obtain ⟨⟨name, text⟩, hmem, rfl⟩ := List.mem_map.1 hcount
    have hopenings : openings name = 0 := by
      rcases name_of_mem_attributeValues hmem with rfl | rfl | rfl | ⟨free, hfree, rfl⟩
      · rfl
      · rfl
      · rfl
      · exact openings_eq_zero_iff.2 (hnames.2 free hfree)
    have hquotes : openings " " = 0 ∧ openings "=\"" = 0 ∧ openings "\"" = 0 := ⟨rfl, rfl, rfl⟩
    simp [attributeText, hopenings, hquotes]
  have hend : ∀ selfClosing : Bool, openings (if selfClosing then " />" else ">") = 0 := by
    intro selfClosing
    cases selfClosing <;> rfl
  have hstart : openings "<" = 1 := rfl
  rw [openingTag_eq_tagText hdialect, tagText, openings_append, openings_append, openings_append,
    openings_join, List.map_map, hend, hstart, openings_eq_zero_iff.2 hnames.1]
  exact congrArg (1 + 0 + · + 0) hattributes

/-- A closing tag opens once, unless its name opens something too. -/
theorem openings_closingTag {tag : String} (htag : '<' ∉ tag.toList) :
    openings (closingTag tag) = 1 := by
  have hstart : openings "</" = 1 := rfl
  have hend : openings ">" = 0 := rfl
  rw [closingTag, openings_append, openings_append, openings_eq_zero_iff.2 htag, hstart, hend]

/-- The tags of a forest are those of its first tree and of the others. -/
theorem tagCount_cons (node : Node) (forest : Forest) :
    tagCount (node :: forest) =
      (match node.kind with
        | .text => 0
        | .single => 1
        | .container => 2 + tagCount node.children) + tagCount forest := by
  unfold tagCount
  rw [elements_cons]
  cases hkind : node.kind with
  | text => simp
  | single => simp [hkind]; omega
  | container => simp [hkind]; omega

/-- **The markup of a forest opens as many tags as its elements have.** -/
theorem openings_forestText (hdialect : options.dialect = .html) {forest : Forest}
    (hnames : ∀ node ∈ elements forest, HasPlainNames node) (depth : Nat) :
    openings (forestText options depth forest) = tagCount forest := by
  -- the depth changes with the children and does not matter for what a line opens
  induction forest using Forest.induction generalizing depth with
  | nil => rfl
  | cons node forest ihc ihf =>
    obtain ⟨hnode, hbelow, hrest⟩ := forall_mem_elements_cons.1 hnames
    rw [forestText_cons, openings_append, ihf hrest, tagCount_cons, nodeText_eq]
    congr 1
    cases hkind : node.kind with
    | text => simp [openings_line]
    | single =>
      have hplain := hnode (by rw [hkind]; exact NodeKind.noConfusion)
      simp [openings_line, openings_openingTag hdialect hplain]
    | container =>
      have hplain := hnode (by rw [hkind]; exact NodeKind.noConfusion)
      have hopen := openings_openingTag hdialect hplain
      have hclose := openings_closingTag hplain.1
      have hchildren := ihc (hbelow hkind) (depth + 1)
      cases hempty : node.children.isEmpty with
      | true =>
        rw [List.isEmpty_iff.1 hempty]
        simp [openings_line, hopen, hclose, tagCount, elements, Forest.visited]
      | false =>
        simp [openings_line, hopen, hclose, hchildren]
        omega

/-! ## Style sheets -/

/-- Every rule is for a class that is generated from a key. -/
theorem exists_key_of_mem_rules {forest : Forest} {found : List Rule}
    (h : rules forest = .ok found) :
    ∀ rule ∈ found, ∃ key : Key, rule.className = key.className := by
  intro rule hrule
  rw [(eq_of_rules_eq_ok h).2] at hrule
  obtain ⟨node, -, hown⟩ := List.mem_filterMap.1 hrule
  obtain ⟨-, -, rfl⟩ := ownRule?_eq_some_iff.1 hown
  exact ⟨node.key, rfl⟩

/-- How often the character that opens a tag stands in the declarations of rules. -/
def declaredOpenings (rules : List Rule) : Nat :=
  ((rules.flatMap Rule.declarations).map fun d => openings d.1 + openings d.2).sum

/-- A declaration opens what its name and its value open. -/
theorem openings_declarationText (d : Declaration) :
    openings (declarationText d) = openings d.1 + openings d.2 := by
  have hcolon : openings ": " = 0 := rfl
  have hend : openings ";" = 0 := rfl
  simp [declarationText, hcolon, hend]

/-- A rule of a class name opens what its declarations open. -/
theorem openings_ruleText (options : Options) {rule : Rule} {key : Key}
    (hclass : rule.className = key.className) :
    openings (ruleText options rule) = declaredOpenings [rule] := by
  have hdot : openings "." = 0 := rfl
  have hopen : openings " \x7b" = 0 := rfl
  have hclose : openings "\x7d" = 0 := rfl
  rw [declaredOpenings, List.flatMap_singleton]
  simp only [ruleText, openings_append, openings_line, openings_join, hclass, openings_className,
    hdot, hopen, hclose, List.map_map, Function.comp_def,
    openings_declarationText, Nat.zero_add, Nat.add_zero]

/-- A style sheet opens the two tags around it, and one more for each character that opens a tag in
its declarations, which are not escaped. -/
theorem openings_sheetText (options : Options) {found : List Rule}
    (hclasses : ∀ rule ∈ found, ∃ key : Key, rule.className = key.className) :
    openings (sheetText options found) =
      (if found.isEmpty then 0 else 2) + declaredOpenings found := by
  have hrules : ((found.map (ruleText options)).map openings).sum = declaredOpenings found := by
    induction found with
    | nil => rfl
    | cons rule found ih =>
      obtain ⟨⟨key, hclass⟩, hrest⟩ := List.forall_mem_cons.1 hclasses
      rw [List.map_cons, List.map_cons, List.sum_cons, ih hrest, openings_ruleText options hclass]
      simp [declaredOpenings]
  have hopen : openings "<style>" = 1 := rfl
  have hclose : openings "</style>" = 1 := rfl
  rw [sheetText]
  cases hempty : found.isEmpty with
  | true =>
    rw [List.isEmpty_iff.1 hempty]
    rfl
  | false =>
    simp only [Bool.false_eq_true, if_false, openings_append, openings_line, openings_join, hrules,
      hopen, hclose]
    omega

/-! ## Pages -/

/-- **Where a page opens tags.** In the HTML dialect, whatever the values in a forest are, its page
has the character that opens a tag once for each self-closing element, twice for each container and
twice for a style sheet, and as often again as the character stands in the declarations of the
sheet; so it opens these tags only exactly when no declaration of the sheet has the character. -/
theorem openings_page {forest : Forest} {text : String} (hdialect : options.dialect = .html)
    (hnames : ∀ node ∈ elements forest, HasPlainNames node)
    (hpage : page options forest = .ok text) :
    openings text =
        tagCount forest + (if (pageRules options forest).isEmpty then 0 else 2) +
          declaredOpenings (pageRules options forest) ∧
      (openings text = tagCount forest + (if (pageRules options forest).isEmpty then 0 else 2) ↔
        ∀ rule ∈ pageRules options forest, ∀ d ∈ rule.declarations,
          '<' ∉ d.1.toList ∧ '<' ∉ d.2.toList) := by
  obtain ⟨-, rfl⟩ := eq_of_page_eq_ok hpage
  -- the name of a rule is that of a class, in which no tag opens
  have hclasses : ∀ rule ∈ pageRules options forest,
      ∃ key : Key, rule.className = key.className := by
    rw [pageRules]
    split
    next =>
      cases hrules : rules forest with
      | error clash => exact List.forall_mem_nil _
      | ok found => exact exists_key_of_mem_rules hrules
    next => exact List.forall_mem_nil _
  have hcount : openings (sheetText options (pageRules options forest) ++
        forestText options 0 forest) =
      tagCount forest + (if (pageRules options forest).isEmpty then 0 else 2) +
        declaredOpenings (pageRules options forest) := by
    rw [openings_append, openings_sheetText options hclasses,
      openings_forestText hdialect hnames 0]
    omega
  -- the surplus is a sum over all declarations, so it vanishes only with each of them
  have hzero : declaredOpenings (pageRules options forest) = 0 ↔
      ∀ rule ∈ pageRules options forest, ∀ d ∈ rule.declarations,
        '<' ∉ d.1.toList ∧ '<' ∉ d.2.toList := by
    rw [declaredOpenings, List.sum_eq_zero_iff_forall_eq_nat, List.forall_mem_map]
    simp only [List.mem_flatMap, Nat.add_eq_zero_iff, openings_eq_zero_iff]
    constructor
    · intro h rule hrule d hd
      exact h d ⟨rule, hrule, hd⟩
    · rintro h d ⟨rule, hrule, hd⟩
      exact h rule hrule d hd
  refine ⟨hcount, ?_⟩
  rw [hcount, ← hzero]
  omega

/-- A paragraph whose style sets one value. -/
def styledParagraph (name value : String) : Forest :=
  [{ kind := .container, key := .number 1, tag := "p"
     props := some { style := .ofList [(name, .text value)] } }]

/-- A page with a style sheet that opens four tags. -/
theorem openings_page_of_quoted :
    let options : Options := { styleMode := .classes }
    let forest := styledParagraph "content" "a > b"
    let text := "<style>\n  .n1 \x7b\n    content: a > b;\n  \x7d\n</style>\n" ++
      "<p class=\"n1\" style=\"content: a &gt; b;\"></p>\n"
    options.dialect = .html ∧ (∀ node ∈ elements forest, HasPlainNames node) ∧
      page options forest = .ok text ∧
      openings text =
        tagCount forest + (if (pageRules options forest).isEmpty then 0 else 2) +
          declaredOpenings (pageRules options forest) ∧
      (openings text = tagCount forest + (if (pageRules options forest).isEmpty then 0 else 2) ↔
        ∀ rule ∈ pageRules options forest, ∀ d ∈ rule.declarations,
          '<' ∉ d.1.toList ∧ '<' ∉ d.2.toList) := by
  intro options forest text
  have hnames : ∀ node ∈ elements forest, HasPlainNames node := by decide
  have hpage : page options forest = .ok text := by rfl
  exact ⟨rfl, hnames, hpage, openings_page rfl hnames hpage⟩

/-- A value that closes the style sheet: the page opens a tag more than its elements and its style
sheet have. -/
theorem openings_page_ne_of_closing_value :
    let options : Options := { styleMode := .classes }
    let forest := styledParagraph "content" "</style>"
    let text := "<style>\n  .n1 \x7b\n    content: </style>;\n  \x7d\n</style>\n" ++
      "<p class=\"n1\" style=\"content: &lt;/style&gt;;\"></p>\n"
    options.dialect = .html ∧ (∀ node ∈ elements forest, HasPlainNames node) ∧
      page options forest = .ok text ∧ openings text = 5 ∧
        tagCount forest + (if (pageRules options forest).isEmpty then 0 else 2) = 4 := by
  intro options forest text
  have hpage : page options forest = .ok text := by rfl
  exact ⟨rfl, by decide, hpage, by decide, by decide⟩

end PageTree.Markup
