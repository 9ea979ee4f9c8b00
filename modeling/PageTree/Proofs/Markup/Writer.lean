import PageTree.Proofs.Markup.MergedPage

/-! # Markup written in place

A page is a text that is put together from the texts of its parts. Here the same pages are written
in place: a **`Writer`** has a nesting depth and the text so far, every part adds its lines at the
depth that the writer has then, and an error ends the writing where it occurs. The rules of a
forest are collected in place too (**`Collector`**), up to the first clash. What the steps add is
what the texts say (**`Emits`**), the depth is the same after each part as before it, and so pages
and style sheets written in place are those that are put together
(**`Writer.output_writePage`**, **`Writer.output_writeSheet`**). Main statement:
`Writer.page_eq_sheet_append_of_classes`, in classes mode a page is its style sheet with the page
without a style sheet after it. -/

namespace PageTree.Markup

/-! ## Collecting rules -/

/-- The rules collected so far, with the first clash met. -/
structure Collector where
  /-- The rules and the owners of their classes. -/
  table : RuleTable := {}
  /-- The clash that ended the collection. -/
  clash : Option ClassClash := none

namespace Collector

/-- Takes one element into account. -/
def enter (c : Collector) (node : Node) : Collector :=
  if (explicitClass? node).isSome then c
  else
    let className := node.key.className
    match c.table.owners.lookup className with
    | some owner =>
      if owner = node.key then c else { c with clash := some ⟨className, owner, node.key⟩ }
    | none =>
      let declarations := declarations node
      { c with table := {
          owners := c.table.owners ++ [(className, node.key)]
          rules := if declarations.isEmpty then c.table.rules
            else c.table.rules ++ [⟨className, declarations⟩] } }

mutual

/-- Visits a subtree. Nothing is done for texts, nor after a clash, and what is below a self-closing
element is left out. -/
def visit (c : Collector) : Node → Collector
  | { kind, key, tag, displayName, children, props, content } =>
    if kind = .text ∨ c.clash.isSome then c
    else
      let entered := c.enter { kind, key, tag, displayName, children, props, content }
      if entered.clash.isSome ∨ kind = .single then entered
      else entered.visitAll children

/-- Visits the nodes of a forest in order. -/
def visitAll (c : Collector) : Forest → Collector
  | [] => c
  | node :: forest => (c.visit node).visitAll forest

end

/-- What was collected, if there was no clash. -/
def result (c : Collector) : Except ClassClash RuleTable :=
  match c.clash with
  | some clash => .error clash
  | none => .ok c.table

variable (c : Collector)

/-- Visiting a node enters it, and goes on to its children where there are some to visit and no
clash. -/
theorem visit_eq (node : Node) :
    c.visit node =
      if node.kind = .text ∨ c.clash.isSome then c
      else if (c.enter node).clash.isSome ∨ node.kind = .single then c.enter node
      else (c.enter node).visitAll node.children := by
  cases node; rw [visit]

/-- Taking an element into account adds it to the table or is a clash. -/
theorem result_enter (hclash : c.clash = none) (node : Node) :
    (c.enter node).result = c.table.add node := by
  have hresult : c.result = .ok c.table := by rw [result, hclash]
  rw [enter, RuleTable.add]
  cases (explicitClass? node).isSome with
  | true => exact hresult
  | false =>
    simp only [Bool.false_eq_true, if_false]
    cases c.table.owners.lookup node.key.className with
    | none => simp only [result, hclash]
    | some owner =>
      by_cases howner : owner = node.key
      · simp only [howner, if_true, hresult]
      · simp only [howner, if_false, result]

/-- After a clash nothing more is collected. -/
theorem visitAll_of_clash (hclash : c.clash.isSome) (forest : Forest) : c.visitAll forest = c := by
  induction forest with
  | nil => rw [visitAll]
  | cons node forest ih => rw [visitAll, visit_eq, if_pos (.inr hclash), ih]

/-- What is collected from a forest is added to the table element by element, up to the first
clash. -/
theorem result_visitAll (forest : Forest) :
    (c.visitAll forest).result = c.result >>= (elements forest).foldlM RuleTable.add := by
  induction forest using Forest.induction generalizing c with
  | nil =>
    rw [visitAll]
    cases c.result <;> rfl
  | cons node forest ihc ihf =>
    cases hclash : c.clash with
    | some clash =>
      rw [visitAll_of_clash c (by rw [hclash, Option.isSome_some]), result, hclash]
      rfl
    | none =>
      have hbind : ∀ next : RuleTable → Except ClassClash RuleTable,
          c.result >>= next = next c.table := by
        intro next
        rw [result, hclash]
        rfl
      rw [visitAll, ihf, hbind, elements_cons, visit_eq, hclash]
      cases hkind : node.kind with
      | text => simp [hbind]
      | single => simp [result_enter c hclash node]
      | container =>
        -- a clash at the node itself leaves nothing to do for its children either
        have hvisit : (if (c.enter node).clash.isSome then c.enter node
            else (c.enter node).visitAll node.children) =
              (c.enter node).visitAll node.children := by
          split
          · rename_i h
            rw [visitAll_of_clash _ h]
          · rfl
        simp [hvisit, ihc, result_enter c hclash node, List.foldlM_append]

/-- The rules of a forest are those that are collected in place. -/
theorem result_visitAll_empty (forest : Forest) :
    (visitAll {} forest).result.map RuleTable.rules = rules forest := by
  rw [result_visitAll]
  rfl

end Collector

/-! ## Writing -/

/-- The state of markup being written. -/
structure Writer where
  /-- How deep the next line is nested. -/
  depth : Nat := 0
  /-- What is written so far. -/
  text : String := ""

namespace Writer

/-- Steps that write markup, up to the first error. -/
abbrev Steps := StateT Writer (Except PageError) Unit

/-- Adds a text. -/
def add (text : String) : Steps := modify fun w => { w with text := w.text ++ text }

/-- Adds the spaces in front of a line. -/
def addIndent (options : Options) : Steps := do add (indentText options (← get).depth)

/-- Adds a line. -/
def addLine (options : Options) (text : String) : Steps := do
  addIndent options
  add text
  add "\n"

/-- What comes next is one level deeper. -/
def indent : Steps := modify fun w => { w with depth := w.depth + 1 }

/-- What comes next is one level less deep, and never less than at the left margin. -/
def dedent : Steps := modify fun w => { w with depth := w.depth - 1 }

mutual

/-- Adds a node. -/
def addNode (options : Options) : Node → Steps
  | { kind, key, tag, displayName, children, props, content } => do
    let node : Node := { kind, key, tag, displayName, children, props, content }
    if kind = .text then
      addLine options (escapeText (content.getD ""))
    else
      addIndent options
      add (openingTag options node)
      if kind = .single then
        add "\n"
      else if children.isEmpty then
        add (closingTag tag ++ "\n")
      else
        add "\n"
        indent
        addForest options children
        dedent
        addLine options (closingTag tag)

/-- Adds the nodes of a forest in order. -/
def addForest (options : Options) : Forest → Steps
  | [] => pure ()
  | node :: forest => do
    addNode options node
    addForest options forest

end

/-- The steps for a node by its kind. -/
theorem addNode_eq (options : Options) (node : Node) :
    addNode options node =
      if node.kind = .text then addLine options (escapeText (node.content.getD ""))
      else (do
        addIndent options
        add (openingTag options node)
        if node.kind = .single then
          add "\n"
        else if node.children.isEmpty then
          add (closingTag node.tag ++ "\n")
        else
          add "\n"
          indent
          addForest options node.children
          dedent
          addLine options (closingTag node.tag)) := by
  cases node; rw [addNode]

/-- Adds rules as a `<style>` element, or nothing without a rule. -/
def addRules (options : Options) (rules : List Rule) : Steps := do
  unless rules.isEmpty do
    addLine options "<style>"
    indent
    rules.forM fun rule => do
      addLine options ("." ++ rule.className ++ " \x7b")
      indent
      rule.declarations.forM fun declaration => addLine options (declarationText declaration)
      dedent
      addLine options "\x7d"
    dedent
    addLine options "</style>"

/-- Refuses a forest with a node that cannot be written. -/
def refuseFaults (forest : Forest) : Steps :=
  forest.forM fun node =>
    match node.fault? with
    | some fault => throw (.invalidNode fault)
    | none => pure ()

/-- Collects the rules of a forest, or refuses it for a clash. -/
def collect (forest : Forest) : StateT Writer (Except PageError) (List Rule) :=
  match (Collector.visitAll {} forest).result with
  | .error clash => throw (.classClash clash)
  | .ok table => return table.rules

/-- Writes the page of a forest. -/
def writePage (options : Options) (forest : Forest) : Steps := do
  refuseFaults forest
  if options.styleMode = .classes then
    let rules ← collect forest
    if options.styleSheet then addRules options rules
  addForest options forest

/-- Writes the style sheet of a forest. -/
def writeSheet (options : Options) (forest : Forest) : Steps := do
  if options.styleMode = .classes then
    let rules ← collect forest
    addRules options rules

/-- What steps have written at their end. -/
def output (steps : Steps) : Except PageError String :=
  (steps.run {}).map fun written => written.2.text

/-! ## What steps add -/

/-- The steps add a text at a nesting depth, whatever is written before it, and leave the depth as
it is. -/
def Emits (depth : Nat) (steps : Steps) (text : String) : Prop :=
  ∀ before, steps.run ⟨depth, before⟩ = .ok ((), ⟨depth, before ++ text⟩)

namespace Emits

variable {depth : Nat} {steps more : Steps} {text rest : String}

/-- No steps add nothing. -/
theorem nothing : Emits depth (pure ()) "" := by
  intro before
  rw [String.append_empty]
  rfl

/-- A text is added as it is, at any depth. -/
theorem add (text : String) : Emits depth (Writer.add text) text := fun _ => rfl

/-- The spaces that are added are those of the depth. -/
theorem addIndent (options : Options) :
    Emits depth (Writer.addIndent options) (indentText options depth) :=
  fun _ => rfl

/-- Steps in succession add their texts one after the other. -/
theorem andThen (h : Emits depth steps text) (hmore : Emits depth more rest) :
    Emits depth (do steps; more) (text ++ rest) := by
  intro before
  rw [StateT.run_bind, h, ← String.append_assoc]
  exact hmore _

/-- What is added one level deeper leaves the level as it was for what comes next. -/
theorem nested (h : Emits (depth + 1) steps text) (hmore : Emits depth more rest) :
    Emits depth (do indent; steps; dedent; more) (text ++ rest) := by
  intro before
  have hsteps : StateT.run (do steps; dedent; more) ⟨depth + 1, before⟩ =
      more.run ⟨depth, before ++ text⟩ := by
    rw [StateT.run_bind, h]
    rfl
  rw [← String.append_assoc, ← hmore, ← hsteps]
  rfl

/-- A line is added with the spaces of the depth. -/
theorem addLine (options : Options) (text : String) :
    Emits depth (Writer.addLine options text) (line options depth text) := by
  rw [line_eq]
  exact (addIndent options).andThen ((add text).andThen (add "\n"))

/-- A loop adds what its rounds add. -/
theorem forM {α : Type} {step : α → Steps} {write : α → String} (list : List α)
    (h : ∀ a ∈ list, Emits depth (step a) (write a)) :
    Emits depth (list.forM step) (String.join (list.map write)) := by
  induction list with
  | nil => exact nothing
  | cons a list ih =>
    rw [List.map_cons, String.join_cons]
    exact (h a List.mem_cons_self).andThen (ih fun b hb => h b (List.mem_cons_of_mem _ hb))

end Emits

/-- A forest adds its markup at the depth that the writer has. -/
theorem emits_addForest (options : Options) (forest : Forest) (depth : Nat) :
    Emits depth (addForest options forest) (forestText options depth forest) := by
  induction forest using Forest.induction generalizing depth with
  | nil => rw [addForest]; exact .nothing
  | cons node forest ihc ihf =>
    -- a node is written from its tags and the forest below it, which is one level deeper
    have hnode : Emits depth (addNode options node) (nodeText options depth node) := by
      rw [nodeText_eq, addNode_eq]
      cases node.kind with
      | text => exact .addLine options _
      | single =>
        simp only [reduceCtorEq, if_true, if_false, line_eq]
        exact .andThen (.addIndent options) (.andThen (.add _) (.add _))
      | container =>
        cases hempty : node.children.isEmpty with
        | true =>
          simp only [reduceCtorEq, if_true, if_false, line_eq, String.append_assoc]
          exact .andThen (.addIndent options) (.andThen (.add _) (.add _))
        | false =>
          simp only [reduceCtorEq, Bool.false_eq_true, if_false, String.append_assoc,
            line_eq options depth (openingTag options node)]
          exact .andThen (.addIndent options) (.andThen (.add _) (.andThen (.add _)
            (.nested (ihc (depth + 1)) (.addLine options _))))
    rw [addForest, forestText_cons]
    exact hnode.andThen (ihf depth)

/-- Rules add their style sheet at the left margin. -/
theorem emits_addRules (options : Options) (rules : List Rule) :
    Emits 0 (addRules options rules) (sheetText options rules) := by
  rw [addRules, sheetText]
  cases rules.isEmpty with
  | true => exact .nothing
  | false =>
    simp only [Bool.false_eq_true, if_false, String.append_assoc]
    refine .andThen (.addLine options _)
      (.nested (.forM rules fun rule _ => ?_) (.addLine options _))
    rw [ruleText, String.append_assoc]
    exact .andThen (.addLine options _)
      (.nested (.forM _ fun d _ => .addLine options (declarationText d)) (.addLine options _))

/-! ## Pages and style sheets -/

variable {options : Options} {forest : Forest}

/-- What steps add to an empty text is their output. -/
theorem Emits.output_eq {steps : Steps} {text : String} (h : Emits 0 steps text) :
    output steps = .ok text := by
  rw [output, h, ← String.empty_append (s := text)]
  rfl

/-- A forest is refused for its first fault, and what is written stays as it is without one. -/
theorem run_refuseFaults (forest : Forest) (w : Writer) :
    (refuseFaults forest).run w =
      match Forest.fault? forest with
      | some fault => .error (.invalidNode fault)
      | none => .ok ((), w) := by
  induction forest with
  | nil => rfl
  | cons node forest ih =>
    rw [refuseFaults, List.forM, Forest.fault?]
    cases node.fault? with
    | some fault => rfl
    | none => exact ih

/-- The rules that are collected are those of the forest. -/
theorem collect_eq (forest : Forest) :
    collect forest =
      match rules forest with
      | .error clash => throw (.classClash clash)
      | .ok rules => return rules := by
  rw [collect, ← Collector.result_visitAll_empty]
  cases (Collector.visitAll {} forest).result <;> rfl

/-- The style sheet written in place is that of the forest. -/
theorem output_writeSheet (options : Options) (forest : Forest) :
    output (writeSheet options forest) = styleSheet options forest := by
  rw [writeSheet, styleSheet, collect_eq]
  cases options.styleMode with
  | inline => exact Emits.nothing.output_eq
  | classes =>
    cases rules forest with
    | error clash => rfl
    | ok rules => exact (emits_addRules options rules).output_eq

/-- The page written in place is that of the forest. -/
theorem output_writePage (options : Options) (forest : Forest) :
    output (writePage options forest) = page options forest := by
  have hforest := emits_addForest options forest 0
  rw [output, writePage, StateT.run_bind, run_refuseFaults, page, styleSheet, collect_eq]
  cases Forest.fault? forest with
  | some fault => rfl
  | none =>
    cases options.styleMode with
    | inline => cases options.styleSheet <;> exact (Emits.nothing.andThen hforest).output_eq
    | classes =>
      cases rules forest with
      | error clash => rfl
      | ok rules =>
        cases options.styleSheet with
        | true => exact ((emits_addRules options rules).andThen hforest).output_eq
        | false => exact (Emits.nothing.andThen hforest).output_eq

/-- Whether the style sheet is part of a page changes nothing in the markup of its nodes. -/
theorem forestText_styleSheet (options : Options) (asked : Bool) (forest : Forest) (depth : Nat) :
    forestText { options with styleSheet := asked } depth forest =
      forestText options depth forest := by
  induction forest using Forest.induction generalizing depth with
  | nil => rfl
  | cons node forest ihc ihf =>
    rw [forestText_cons, forestText_cons, ihf, nodeText_eq, nodeText_eq, ihc]
    rfl

/-- The page of a forest whose nodes can be written, with the style sheet or without it. -/
theorem page_eq_of_valid (hvalid : Forest.fault? forest = none) (asked : Bool) :
    page { options with styleSheet := asked } forest =
      (styleSheet options forest).map fun sheet =>
        (if asked then sheet else "") ++ forestText options 0 forest := by
  have hsheet : styleSheet { options with styleSheet := asked } forest =
      styleSheet options forest := rfl
  simp only [page, hvalid, hsheet, forestText_styleSheet]

/-- **In classes mode a page is its style sheet and then the page without one.** Of a forest whose
nodes can be written, the page with the style sheet, the page without it and the style sheet alone,
all three as they are written in place: the first succeeds exactly when the others do, and is then
the style sheet with the page without it behind it; when one of them fails, all of them do, for the
same clash. -/
theorem page_eq_sheet_append_of_classes (hmode : options.styleMode = .classes)
    (hvalid : Forest.fault? forest = none) :
    let full : Options := { options with styleSheet := true }
    let bare : Options := { options with styleSheet := false }
    (output (writePage full forest) = page full forest ∧
      output (writePage bare forest) = page bare forest ∧
      output (writeSheet options forest) = styleSheet options forest) ∧
    ((∃ text, page full forest = .ok text) ↔
      (∃ body, page bare forest = .ok body) ∧ ∃ sheet, styleSheet options forest = .ok sheet) ∧
    (∀ text, page full forest = .ok text → ∃ sheet body, styleSheet options forest = .ok sheet ∧
      page bare forest = .ok body ∧ text = sheet ++ body) ∧
    ∀ error, page full forest = .error error ∨ page bare forest = .error error ∨
        styleSheet options forest = .error error →
      (∃ clash, error = .classClash clash) ∧ page full forest = .error error ∧
        page bare forest = .error error ∧ styleSheet options forest = .error error := by
  intro full bare
  refine ⟨⟨output_writePage _ _, output_writePage _ _, output_writeSheet _ _⟩, ?_⟩
  have hfull : page full forest = _ := page_eq_of_valid hvalid true
  have hbare : page bare forest = _ := page_eq_of_valid hvalid false
  have hsheet : styleSheet options forest =
      ((rules forest).map (sheetText options)).mapError .classClash := by
    rw [styleSheet, hmode]
  rw [hfull, hbare, hsheet]
  -- all three depend on the forest through its rules alone
  cases rules forest with
  | error clash =>
    refine ⟨by simp [Except.map, Except.mapError], by simp [Except.map, Except.mapError],
      fun error h => ?_⟩
    obtain rfl : error = .classClash clash := by
      simpa [Except.map, Except.mapError, eq_comm] using h
    exact ⟨⟨clash, rfl⟩, rfl, rfl, rfl⟩
  | ok found =>
    refine ⟨iff_of_true ⟨_, rfl⟩ ⟨⟨_, rfl⟩, _, rfl⟩, ?_, by simp [Except.map, Except.mapError]⟩
    intro text htext
    refine ⟨_, _, rfl, rfl, ?_⟩
    rw [← Except.ok.inj htext]
    simp only [Bool.false_eq_true, if_true, if_false, String.empty_append]

/-- A page of two elements, the first with a rule for its class. -/
theorem page_of_red_list :
    let options : Options := { styleMode := .classes }
    let forest : Forest :=
      [{ kind := .container, key := .number 7, tag := "div"
         props := some { style := .ofList [("color", .text "red")] }
         children := [{ kind := .single, key := .number 8, tag := "br" }] }]
    let full : Options := { options with styleSheet := true }
    let bare : Options := { options with styleSheet := false }
    (options.styleMode = .classes ∧ Forest.fault? forest = none) ∧
    (output (writePage full forest) = page full forest ∧
      output (writePage bare forest) = page bare forest ∧
      output (writeSheet options forest) = styleSheet options forest) ∧
    ((∃ text, page full forest = .ok text) ↔
      (∃ body, page bare forest = .ok body) ∧ ∃ sheet, styleSheet options forest = .ok sheet) ∧
    (∀ text, page full forest = .ok text → ∃ sheet body, styleSheet options forest = .ok sheet ∧
      page bare forest = .ok body ∧ text = sheet ++ body) ∧
    ∀ error, page full forest = .error error ∨ page bare forest = .error error ∨
        styleSheet options forest = .error error →
      (∃ clash, error = .classClash clash) ∧ page full forest = .error error ∧
        page bare forest = .error error ∧ styleSheet options forest = .error error := by
  intro options forest full bare
  have hvalid : Forest.fault? forest = none := by decide
  exact ⟨⟨rfl, hvalid⟩, page_eq_sheet_append_of_classes rfl hvalid⟩

end Writer

end PageTree.Markup
