import PageTree.Markup.Page
import PageTree.Proofs.Clash
import PageTree.Proofs.Markup.Owners

/-! # What a style sheet says of elements

With distinct class names every element without an explicit class makes the rule of its own
declarations (**`Markup.rules_eq_of_distinctClasses`**), and no other element has its generated
class. An explicit class may still be spelled like a generated one. Main statement:
`sheet_agrees_iff`, the rules of a style sheet say of elements what their own styles say exactly
when that holds of the elements with such an explicit class. -/

namespace PageTree.Markup

/-! ## The words of a class attribute -/

/-- The classes that a class attribute lists. -/
def classWords (s : String) : List String :=
  ((s.toList.splitOnP Text.isBlank).filter fun word => !word.isEmpty).map String.ofList

/-- A generated class is one word. -/
theorem classWords_className (key : Key) : classWords key.className = [key.className] := by
  have hsplit : key.className.toList.splitOnP Text.isBlank = [key.className.toList] := by
    refine List.splitOnP_eq_singleton fun c hc => ?_
    exact Key.isBlank_eq_false_of_isClassChar (Key.isClassChar_of_mem_className hc)
  have hne : key.className.toList.isEmpty = false := by
    rw [← Bool.not_eq_true, List.isEmpty_iff]
    exact Key.className_toList_ne_nil key
  rw [classWords, hsplit, List.filter_cons, hne]
  simp

/-! ## Rules of distinct keys -/

/-- The keys of the elements are keys of the forest, in their order. -/
theorem map_key_elements_sublist (forest : Forest) :
    ((elements forest).map Node.key).Sublist (Forest.keys forest) := by
  induction forest using Forest.induction with
  | nil => exact .slnil
  | cons node forest ihc ihf =>
    rw [elements_cons, List.map_append, List.map_append, Forest.keys_cons]
    have hbelow : ((if node.kind = .container then elements node.children else []).map
        Node.key).Sublist (Forest.keys node.children) := by
      split
      · exact ihc
      · exact List.nil_sublist _
    split
    · exact (hbelow.append ihf).cons _
    · exact (hbelow.append ihf).cons_cons _

/-- With distinct class names, so are those generated for the elements. -/
theorem nodup_className_elements {forest : Forest} (h : forest.DistinctClasses) :
    ((elements forest).map fun node => node.key.className).Nodup := by
  have hsublist := (map_key_elements_sublist forest).map Key.className
  rw [List.map_map] at hsublist
  exact List.Nodup.sublist hsublist h

/-- With distinct class names, elements with one class name are the same. -/
theorem eq_of_className_eq {forest : Forest} (h : forest.DistinctClasses) {a b : Node}
    (ha : a ∈ elements forest) (hb : b ∈ elements forest)
    (hclass : a.key.className = b.key.className) : a = b :=
  List.inj_on_of_nodup_map (nodup_className_elements h) ha hb hclass

/-- With distinct class names, no class is generated for two keys. -/
theorem oneKeyPerClass_elements {forest : Forest} (h : forest.DistinctClasses) :
    OneKeyPerClass (generated (elements forest)) := by
  intro a ha b hb hclass
  rw [eq_of_className_eq h (List.mem_filter.1 ha).1 (List.mem_filter.1 hb).1 hclass]

/-- **With distinct class names, the rules are those that the elements make.** -/
theorem rules_eq_of_distinctClasses {forest : Forest} (h : forest.DistinctClasses) :
    rules forest = .ok ((elements forest).filterMap ownRule?) := by
  have hnodup : ((generated (elements forest)).map Node.key).Nodup := by
    refine List.Nodup.of_map Key.className ?_
    rw [List.map_map]
    exact (nodup_className_elements h).sublist (List.filter_sublist.map _)
  rw [rules_eq_ok (oneKeyPerClass_elements h), firstOfKeys_of_nodup hnodup,
    filterMap_ownRule?_generated]

/-- A forest with distinct class names has a style sheet under any options. -/
theorem exists_styleSheet_eq_ok {forest : Forest} (h : forest.DistinctClasses) (options : Options) :
    ∃ sheet, styleSheet options forest = .ok sheet := by
  rw [styleSheet]
  cases options.styleMode with
  | inline => exact ⟨"", rfl⟩
  | classes =>
    rw [rules_eq_of_distinctClasses h]
    exact ⟨_, rfl⟩

/-! ## What rules say of elements -/

/-- Rules say of every element that lists their class what its own style says. -/
def SheetAgrees (options : Options) (forest : Forest) (rules : List Rule) : Prop :=
  ∀ rule ∈ rules, ∀ node ∈ elements forest, ∀ c, class? options node = some c →
    rule.className ∈ classWords c → declarations node = rule.declarations

/-- Elements whose explicit class lists the class generated for another element, which declares
anything, declare the same. -/
def BorrowersAgree (forest : Forest) : Prop :=
  ∀ node ∈ elements forest, ∀ owner ∈ elements forest, ∀ c, explicitClass? node = some c →
    explicitClass? owner = none → declarations owner ≠ [] →
      owner.key.className ∈ classWords c → declarations node = declarations owner

variable {options : Options} {forest : Forest}

/-- An explicit class is written as it is. -/
theorem class?_of_explicitClass?_eq_some {node : Node} {c : String}
    (h : explicitClass? node = some c) : class? options node = some c := by
  rw [class?, h]

/-- In class mode an element without an explicit class is written with the one generated for its
key. -/
theorem class?_of_explicitClass?_eq_none {node : Node} (hmode : options.styleMode = .classes)
    (h : explicitClass? node = none) : class? options node = some node.key.className := by
  rw [class?, h, hmode]

/-- With distinct class names, the rules can only be wrong about elements with an explicit class. -/
theorem sheetAgrees_iff (hmode : options.styleMode = .classes)
    (hdistinct : forest.DistinctClasses) :
    SheetAgrees options forest ((elements forest).filterMap ownRule?) ↔ BorrowersAgree forest := by
  constructor
  · intro hsheet node hnode owner howner c hexplicit hgenerated hdeclares hword
    have hrule : ownRule? owner = some ⟨owner.key.className, declarations owner⟩ :=
      ownRule?_eq_some_iff.2 ⟨hgenerated, hdeclares, rfl⟩
    exact hsheet _ (List.mem_filterMap.2 ⟨owner, howner, hrule⟩) node hnode c
      (class?_of_explicitClass?_eq_some hexplicit) hword
  · intro hborrowers rule hrule node hnode c hclass hword
    obtain ⟨owner, howner, hown⟩ := List.mem_filterMap.1 hrule
    obtain ⟨hgenerated, hdeclares, rfl⟩ := ownRule?_eq_some_iff.1 hown
    cases hexplicit : explicitClass? node with
    | some explicit =>
      rw [class?_of_explicitClass?_eq_some hexplicit, Option.some.injEq] at hclass
      subst hclass
      exact hborrowers node hnode owner howner explicit hexplicit hgenerated hdeclares hword
    | none =>
      -- a generated class is one word, and no other element has it
      rw [class?_of_explicitClass?_eq_none hmode hexplicit, Option.some.injEq] at hclass
      subst hclass
      rw [classWords_className, List.mem_singleton] at hword
      rw [eq_of_className_eq hdistinct hnode howner hword.symm]

/-- In classes mode with a style sheet, a page is the sheet of its rules and the markup after it. -/
theorem page_eq_ok {text : String} (hmode : options.styleMode = .classes)
    (hsheet : options.styleSheet = true) (h : page options forest = .ok text) :
    ∃ found, rules forest = .ok found ∧
      text = sheetText options found ++ forestText options 0 forest := by
  rw [page] at h
  split at h
  next => contradiction
  next =>
    rw [styleSheet, hmode, hsheet] at h
    cases hrules : rules forest with
    | error clash =>
      rw [hrules] at h
      contradiction
    | ok found =>
      rw [hrules] at h
      exact ⟨found, rfl, (Except.ok.inj h).symm⟩

/-- **What a style sheet says of elements.** Where a forest with distinct class names has a page
with a style sheet, the rules of the sheet say of every element with their class what its own style
says exactly when that holds of the elements whose explicit class is generated for another one. -/
theorem sheet_agrees_iff {text : String} (hmode : options.styleMode = .classes)
    (hsheet : options.styleSheet = true) (hdistinct : forest.DistinctClasses)
    (hpage : page options forest = .ok text) :
    ∃ found, rules forest = .ok found ∧
      text = sheetText options found ++ forestText options 0 forest ∧
      (SheetAgrees options forest found ↔ BorrowersAgree forest) := by
  obtain ⟨found, hrules, htext⟩ := page_eq_ok hmode hsheet hpage
  rw [rules_eq_of_distinctClasses hdistinct] at hrules
  obtain rfl := Except.ok.inj hrules
  exact ⟨_, rules_eq_of_distinctClasses hdistinct, htext, sheetAgrees_iff hmode hdistinct⟩

/-- A red element under a number, and one without a style of its own under the next number, with an
explicit class. -/
def borrowingForest (explicit : String) : Forest :=
  [{ kind := .container, key := .number 7, tag := "div"
     props := some { style := .ofList [("color", .text "red")] } },
   { kind := .container, key := .number 8, tag := "p"
     props := some { className := some explicit } }]

/-- A forest whose explicit class is none of the generated ones. -/
theorem sheet_agrees_of_box :
    let options : Options := { styleMode := .classes }
    let forest := borrowingForest "box n9"
    let text := "<style>\n  .n7 \x7b\n    color: red;\n  \x7d\n</style>\n" ++
      "<div class=\"n7\" style=\"color: red;\"></div>\n<p class=\"box n9\"></p>\n"
    forest.DistinctClasses ∧ page options forest = .ok text ∧
      ∃ found, rules forest = .ok found ∧
        text = sheetText options found ++ forestText options 0 forest ∧
        (SheetAgrees options forest found ↔ BorrowersAgree forest) := by
  intro options forest text
  have hdistinct : forest.DistinctClasses := by decide
  have hpage : page options forest = .ok text := by rfl
  exact ⟨hdistinct, hpage, sheet_agrees_iff rfl rfl hdistinct hpage⟩

/-- An explicit class spelled like a generated one: the rule of the one element makes the other red,
which declares nothing. -/
theorem not_sheetAgrees_of_borrowed :
    let options : Options := { styleMode := .classes }
    let forest := borrowingForest "box n7"
    forest.DistinctClasses ∧ (∃ text, page options forest = .ok text) ∧
      ∃ found, rules forest = .ok found ∧ ¬SheetAgrees options forest found := by
  intro options forest
  refine ⟨by decide, ⟨_, rfl⟩, [⟨"n7", [("color", "red")]⟩], rfl, fun hsheet => ?_⟩
  have hpale : ¬declarations (borrowingForest "box n7")[1] = [("color", "red")] := by decide
  refine hpale (hsheet _ (List.mem_singleton_self _) _ ?_ "box n7" rfl ?_)
  · exact List.mem_cons_of_mem _ (List.mem_singleton_self _)
  · decide

end PageTree.Markup
