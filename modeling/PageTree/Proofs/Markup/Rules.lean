import PageTree.Markup.Page
import PageTree.Proofs.Markup.Elements

/-! # Collecting rules

What one element adds to the table of rules (**`RuleTable.add_eq_of_isSome`** and those after it),
and what rules depend on: whether keys clash does not depend on styles
(**`Forest.Matches.rules_eq_error_iff`**), and rules depend on styles only through the declarations
of the elements (**`Forest.Matches.rules_eq`**). A page has a style sheet of these rules in front of
the markup, or none (**`Markup.eq_of_page_eq_ok`**). -/

namespace PageTree.Markup

/-! ## One element -/

variable {node : Node} {table : RuleTable}

/-- An element with an explicit class adds nothing. -/
theorem RuleTable.add_eq_of_isSome (table : RuleTable) (h : (explicitClass? node).isSome = true) :
    table.add node = .ok table :=
  if_pos h

/-- An element whose class is there adds nothing if it has the key of the class, and clashes if
not. -/
theorem RuleTable.add_eq_of_lookup_eq_some {owner : Key} (h : explicitClass? node = none)
    (howner : table.owners.lookup node.key.className = some owner) :
    table.add node =
      if owner = node.key then .ok table
      else .error ⟨node.key.className, owner, node.key⟩ := by
  unfold add
  rw [h, if_neg (by decide)]
  dsimp only
  rw [howner]

/-- An element whose class is new adds it, with a rule if it declares anything. -/
theorem RuleTable.add_eq_of_lookup_eq_none (h : explicitClass? node = none)
    (hnew : table.owners.lookup node.key.className = none) :
    table.add node = .ok
      { owners := table.owners ++ [(node.key.className, node.key)]
        rules := if (declarations node).isEmpty then table.rules
          else table.rules ++ [⟨node.key.className, declarations node⟩] } := by
  unfold add
  rw [h, if_neg (by decide)]
  dsimp only
  rw [hnew]

/-! ## Matching elements -/

variable {other : Node} {table' : RuleTable}

/-- Whether an element clashes depends on the classes so far and not on declarations. -/
theorem RuleTable.add_of_matches (h : node.MatchesHead other)
    (howners : table.owners = table'.owners) :
    (∃ clash, table.add node = .error clash ∧ table'.add other = .error clash) ∨
      ∃ next next', table.add node = .ok next ∧ table'.add other = .ok next' ∧
        next.owners = next'.owners := by
  have hexplicit := h.explicitClass?_eq
  -- an explicit class is not looked up; a generated one is under the same key in both tables
  cases hother : explicitClass? other with
  | some c =>
    rw [hother] at hexplicit
    refine .inr ⟨table, table', add_eq_of_isSome table ?_, add_eq_of_isSome table' ?_, howners⟩
    · rw [hexplicit]; rfl
    · rw [hother]; rfl
  | none =>
    rw [hother] at hexplicit
    cases hlookup : table'.owners.lookup other.key.className with
    | some owner =>
      have hnode : table.owners.lookup node.key.className = some owner := by
        rw [howners, h.key, hlookup]
      rw [add_eq_of_lookup_eq_some hexplicit hnode, add_eq_of_lookup_eq_some hother hlookup, h.key]
      split
      · exact .inr ⟨table, table', rfl, rfl, howners⟩
      · exact .inl ⟨_, rfl, rfl⟩
    | none =>
      have hnode : table.owners.lookup node.key.className = none := by
        rw [howners, h.key, hlookup]
      rw [add_eq_of_lookup_eq_none hexplicit hnode, add_eq_of_lookup_eq_none hother hlookup]
      refine .inr ⟨_, _, rfl, rfl, ?_⟩
      show table.owners ++ _ = table'.owners ++ _
      rw [howners, h.key]

/-- Elements that match clash alike. -/
theorem foldlM_add_eq_error_iff {nodes others : List Node}
    (h : List.Forall₂ Node.MatchesHead nodes others) (howners : table.owners = table'.owners)
    (clash : ClassClash) :
    nodes.foldlM RuleTable.add table = .error clash ↔
      others.foldlM RuleTable.add table' = .error clash := by
  -- the tables differ in their rules at most, and these are never looked at
  induction h generalizing table table' with
  | nil => exact iff_of_false (fun hnil => nomatch hnil) (fun hnil => nomatch hnil)
  | cons head _ ih =>
    rw [List.foldlM_cons, List.foldlM_cons]
    rcases RuleTable.add_of_matches head howners with
      ⟨clash', hnode, hother⟩ | ⟨next, next', hnode, hother, hnext⟩
    · rw [hnode, hother]
      exact Iff.rfl
    · rw [hnode, hother]
      exact ih hnext

/-- Elements that match and declare the same make the same table. -/
theorem foldlM_add_eq {nodes others : List Node}
    (h : List.Forall₂ Node.MatchesHead nodes others)
    (hdeclarations : nodes.map declarations = others.map declarations) (table : RuleTable) :
    nodes.foldlM RuleTable.add table = others.foldlM RuleTable.add table := by
  induction h generalizing table with
  | nil => rfl
  | cons head _ ih =>
    obtain ⟨hhead, hrest⟩ := List.cons.inj hdeclarations
    rw [List.foldlM_cons, List.foldlM_cons, RuleTable.add, RuleTable.add, head.explicitClass?_eq,
      head.key, hhead]
    exact bind_congr fun next => ih hrest next

end PageTree.Markup

namespace PageTree.Forest

open Markup

variable {forest others : Forest}

/-- In matching forests keys clash alike. -/
theorem Matches.rules_eq_error_iff (h : Matches forest others) (clash : ClassClash) :
    rules forest = .error clash ↔ rules others = .error clash := by
  have hmap : ∀ result : Except ClassClash RuleTable,
      result.map RuleTable.rules = .error clash ↔ result = .error clash := by
    intro result
    cases result with
    | error e => rw [Except.map, Except.error.injEq, Except.error.injEq]
    | ok table => exact iff_of_false (fun hok => nomatch hok) (fun hok => nomatch hok)
  rw [rules, rules, hmap, hmap]
  exact foldlM_add_eq_error_iff h.forall₂_elements rfl clash

/-- Matching forests whose elements declare the same have the same rules. -/
theorem Matches.rules_eq (h : Matches forest others)
    (hdeclarations : (elements forest).map declarations = (elements others).map declarations) :
    rules forest = rules others := by
  rw [rules, rules, foldlM_add_eq h.forall₂_elements hdeclarations]

end PageTree.Forest

namespace PageTree.Markup

/-! ## Pages with a style sheet -/

variable {options : Options}

/-- Where a forest has a style sheet, only a fault keeps it from having a page. -/
theorem page_eq_of_styleSheet_eq_ok {forest : Forest} {sheet : String}
    (h : styleSheet options forest = .ok sheet) :
    page options forest =
      match Forest.fault? forest with
      | some fault => .error (.invalidNode fault)
      | none =>
        .ok ((if options.styleSheet then sheet else "") ++ forestText options 0 forest) := by
  rw [page, h]
  rfl

/-- The rules of the style sheet that stands in the page of a forest: there are none in inline mode,
nor where the options leave the style sheet off. -/
def pageRules (options : Options) (forest : Forest) : List Rule :=
  if options.styleMode = .classes ∧ options.styleSheet = true then
    (rules forest).toOption.getD []
  else []

/-- A page is the style sheet of its rules and the markup after it. -/
theorem eq_of_page_eq_ok {forest : Forest} {text : String} (h : page options forest = .ok text) :
    Forest.fault? forest = none ∧
      text = sheetText options (pageRules options forest) ++ forestText options 0 forest := by
  have hnone : sheetText options [] = "" := rfl
  rw [page] at h
  split at h
  next => contradiction
  next hfault =>
    refine ⟨hfault, ?_⟩
    rw [styleSheet] at h
    rw [pageRules]
    -- without rules the text of the sheet is empty, whether it is asked for or not
    cases hmode : options.styleMode with
    | inline =>
      rw [hmode] at h
      rw [← Except.ok.inj h, if_neg fun hboth => StyleMode.noConfusion hboth.1, hnone]
      dsimp only
      rw [ite_self]
    | classes =>
      rw [hmode] at h
      cases hrules : rules forest with
      | error clash =>
        rw [hrules] at h
        contradiction
      | ok found =>
        rw [hrules] at h
        rw [← Except.ok.inj h]
        cases options.styleSheet <;> rfl

end PageTree.Markup
