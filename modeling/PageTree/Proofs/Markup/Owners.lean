import PageTree.Markup.Page
import PageTree.Proofs.Markup.Rules
import PageTree.Proofs.StyleText

/-! # Owners of generated classes

The first element that a class is generated for owns it. Collecting the rules of elements goes well
as long as every class has one key (**`Markup.OneKeyPerClass`**), and what is collected then are the
rules of the first elements of the keys (**`Markup.firstOfKeys`**); otherwise it ends at the first
element whose class is owned by another key (**`Markup.IsClassClash`**). Both are said by
**`Markup.foldlM_add`**, which follows a table of rules (**`RuleTable.Records`**) through the
elements. Main statement: `rules_of_elements`. -/

namespace PageTree.Markup

/-! ## Keys and classes of elements -/

/-- The nodes whose keys do not come earlier in a list. -/
def firstOfKeys : List Node → List Node
  | [] => []
  | node :: nodes => node :: (firstOfKeys nodes).filter fun other => other.key != node.key

/-- Nodes with one class name have one key. -/
def OneKeyPerClass (nodes : List Node) : Prop :=
  ∀ a ∈ nodes, ∀ b ∈ nodes, a.key.className = b.key.className → a.key = b.key

/-- A clash is that of the first node in a list whose class is generated for another key before; the
other key is that of the earliest node with the class. -/
def IsClassClash (nodes : List Node) (clash : ClassClash) : Prop :=
  ∃ front owner back node after, nodes = (front ++ owner :: back) ++ node :: after ∧
    OneKeyPerClass (front ++ owner :: back) ∧
    (∀ other ∈ front, other.key.className ≠ node.key.className) ∧
    owner.key.className = node.key.className ∧ owner.key ≠ node.key ∧
    clash = ⟨node.key.className, owner.key, node.key⟩

/-- The rule that an element makes: none if it has an explicit class or declares nothing. -/
def ownRule? (node : Node) : Option Rule :=
  if (explicitClass? node).isSome || (declarations node).isEmpty then none
  else some ⟨node.key.className, declarations node⟩

/-- An element makes a rule exactly when it has no explicit class and declares anything. -/
theorem ownRule?_eq_some_iff {node : Node} {rule : Rule} :
    ownRule? node = some rule ↔ explicitClass? node = none ∧ declarations node ≠ [] ∧
      rule = ⟨node.key.className, declarations node⟩ := by
  rw [ownRule?]
  cases explicitClass? node with
  | some c => simp
  | none =>
    cases declarations node with
    | nil => simp
    | cons d ds => simp [eq_comm]

/-- The elements without an explicit class, for which classes are generated. -/
def generated (nodes : List Node) : List Node :=
  nodes.filter fun node => (explicitClass? node).isNone

variable {nodes others : List Node} {node : Node}

/-- Behind other nodes, those are left out whose keys they have. -/
theorem firstOfKeys_append (nodes others : List Node) :
    firstOfKeys (nodes ++ others) =
      firstOfKeys nodes ++
        (firstOfKeys others).filter fun other => !(nodes.map Node.key).contains other.key := by
  induction nodes with
  | nil => simp [firstOfKeys]
  | cons node nodes ih =>
    have hkeys : ∀ other : Node,
        (!((node :: nodes).map Node.key).contains other.key) =
          ((other.key != node.key) && !(nodes.map Node.key).contains other.key) := by
      intro other
      rw [List.map_cons, List.contains_cons, Bool.not_or]
      rfl
    rw [List.cons_append, firstOfKeys, ih, List.filter_append, List.filter_filter, firstOfKeys,
      List.cons_append]
    simp only [hkeys]

/-- A key that no node of a list has is not among their keys. -/
theorem contains_key_eq_false (h : ∀ other ∈ nodes, other.key ≠ node.key) :
    (nodes.map Node.key).contains node.key = false := by
  rw [← Bool.not_eq_true, List.contains_iff_mem, List.mem_map]
  rintro ⟨other, hother, hkey⟩
  exact h other hother hkey

/-- One more node is a first one unless its key came before. -/
theorem firstOfKeys_concat (nodes : List Node) (node : Node) :
    firstOfKeys (nodes ++ [node]) =
      firstOfKeys nodes ++ if (nodes.map Node.key).contains node.key then [] else [node] := by
  rw [firstOfKeys_append, firstOfKeys, firstOfKeys, List.filter_nil, List.filter_singleton]
  cases (nodes.map Node.key).contains node.key <;> rfl

/-- The first nodes of the keys are nodes of the list. -/
theorem mem_of_mem_firstOfKeys (h : node ∈ firstOfKeys nodes) : node ∈ nodes := by
  induction nodes with
  | nil => exact h
  | cons first nodes ih =>
    rcases List.mem_cons.1 h with rfl | hrest
    · exact List.mem_cons_self
    · exact List.mem_cons_of_mem _ (ih (List.mem_filter.1 hrest).1)

/-- The first nodes of the keys have different keys. -/
theorem nodup_key_firstOfKeys (nodes : List Node) : ((firstOfKeys nodes).map Node.key).Nodup := by
  induction nodes with
  | nil => exact List.nodup_nil
  | cons node nodes ih =>
    rw [firstOfKeys, List.map_cons, List.nodup_cons]
    refine ⟨fun hmem => ?_, ih.sublist (List.filter_sublist.map _)⟩
    obtain ⟨other, hother, hkey⟩ := List.mem_map.1 hmem
    have hne : other.key ≠ node.key := by simpa using (List.mem_filter.1 hother).2
    exact hne hkey

/-- Nodes with different keys are all first ones. -/
theorem firstOfKeys_of_nodup (h : (nodes.map Node.key).Nodup) : firstOfKeys nodes = nodes := by
  induction nodes with
  | nil => rfl
  | cons node nodes ih =>
    rw [List.map_cons, List.nodup_cons] at h
    rw [firstOfKeys, ih h.2, List.filter_eq_self.2]
    intro other hother
    rw [bne_iff_ne]
    exact fun hkey => h.1 (List.mem_map.2 ⟨other, hother, hkey⟩)

/-- Elements with an explicit class make no rules. -/
theorem filterMap_ownRule?_generated (nodes : List Node) :
    (generated nodes).filterMap ownRule? = nodes.filterMap ownRule? := by
  rw [generated, List.filterMap_filter]
  refine List.filterMap_congr fun node _ => ?_
  rw [ownRule?]
  cases explicitClass? node <;> rfl

/-! ## Tables along the elements -/

/-- A table of rules after nodes without explicit classes: their classes are owned by the first
nodes that have them, and the rules are those of the first nodes of the keys. -/
structure RuleTable.Records (table : RuleTable) (nodes : List Node) : Prop where
  /-- The first node with a class owns it. -/
  lookup : ∀ c, table.owners.lookup c =
    (nodes.find? fun node => node.key.className == c).map Node.key
  /-- The first node of a key makes its rule. -/
  rules : table.rules = (firstOfKeys nodes).filterMap ownRule?
  /-- No class is generated for two keys. -/
  oneKey : OneKeyPerClass nodes

variable {table : RuleTable}

/-- The table that collecting starts with is the one after no nodes. -/
theorem RuleTable.records_nil : RuleTable.Records {} [] :=
  ⟨fun _ => rfl, rfl, nofun⟩

/-- One more node leaves one key to every class if the nodes with its class have its key. -/
theorem OneKeyPerClass.append_singleton (h : OneKeyPerClass nodes)
    (hnode : ∀ other ∈ nodes, other.key.className = node.key.className → other.key = node.key) :
    OneKeyPerClass (nodes ++ [node]) := by
  intro a ha b hb hclass
  rw [List.mem_append, List.mem_singleton] at ha hb
  rcases ha with ha | rfl
  · rcases hb with hb | rfl
    · exact h a ha b hb hclass
    · exact hnode a ha hclass
  · rcases hb with hb | rfl
    · exact (hnode b hb hclass.symm).symm
    · rfl

/-- An element whose class is new is recorded with its rule. -/
theorem RuleTable.Records.add_of_new (h : table.Records nodes)
    (hexplicit : explicitClass? node = none)
    (hnew : ∀ other ∈ nodes, other.key.className ≠ node.key.className) :
    ∃ next, table.add node = .ok next ∧ next.Records (nodes ++ [node]) := by
  have hfind : nodes.find? (fun other => other.key.className == node.key.className) = none := by
    simpa using hnew
  have hlookup : table.owners.lookup node.key.className = none := by rw [h.lookup, hfind]; rfl
  refine ⟨_, RuleTable.add_eq_of_lookup_eq_none hexplicit hlookup, ?_, ?_, ?_⟩
  · intro c
    rw [List.lookup_append, List.find?_append, h.lookup, Option.map_or]
    congr 1
    -- the table looks a class up as the list of nodes would
    by_cases hc : c = node.key.className
    · rw [hc, List.lookup_cons, beq_self_eq_true, List.find?_cons, beq_self_eq_true]
      rfl
    · have hc' : (node.key.className == c) = false := beq_false_of_ne (Ne.symm hc)
      rw [List.lookup_cons, beq_false_of_ne hc, List.find?_cons, hc']
      rfl
  · -- the key is new as well, since its class is
    have hkey : (nodes.map Node.key).contains node.key = false :=
      contains_key_eq_false fun other hother heq =>
        hnew other hother (congrArg Key.className heq)
    rw [firstOfKeys_concat, hkey, if_neg Bool.false_ne_true, List.filterMap_append, ← h.rules,
      List.filterMap_cons, List.filterMap_nil, ownRule?, hexplicit]
    cases declarations node <;> simp
  · refine h.oneKey.append_singleton fun other hother hclass => ?_
    exact absurd hclass (hnew other hother)

/-- An element whose class is owned by its own key changes nothing. -/
theorem RuleTable.Records.add_of_same (h : table.Records nodes)
    (hexplicit : explicitClass? node = none) {owner : Node}
    (howner : nodes.find? (fun other => other.key.className == node.key.className) = some owner)
    (hkey : owner.key = node.key) :
    table.add node = .ok table ∧ table.Records (nodes ++ [node]) := by
  have hlookup : table.owners.lookup node.key.className = some owner.key := by
    rw [h.lookup, howner]
    rfl
  have hmem := List.mem_of_find?_eq_some howner
  refine ⟨?_, ?_, ?_, ?_⟩
  · rw [RuleTable.add_eq_of_lookup_eq_some hexplicit hlookup, if_pos hkey]
  · intro c
    rw [h.lookup, List.find?_append]
    by_cases hc : node.key.className = c
    · rw [← hc, howner, Option.some_or]
    · rw [List.find?_cons, beq_false_of_ne hc, List.find?_nil, Option.or_none]
  · have hcontains : (nodes.map Node.key).contains node.key = true := by
      rw [List.contains_iff_mem, List.mem_map]
      exact ⟨owner, hmem, hkey⟩
    rw [firstOfKeys_concat, hcontains, if_pos rfl, List.append_nil, h.rules]
  · refine h.oneKey.append_singleton fun other hother hclass => ?_
    rw [h.oneKey other hother owner hmem, hkey]
    rw [hclass, hkey]

/-- An element whose class is owned by another key ends the collection. -/
theorem RuleTable.Records.add_of_clash (h : table.Records nodes)
    (hexplicit : explicitClass? node = none) {owner : Node}
    (howner : nodes.find? (fun other => other.key.className == node.key.className) = some owner)
    (hkey : owner.key ≠ node.key) (after : List Node) :
    ∃ clash, table.add node = .error clash ∧ IsClassClash (nodes ++ node :: after) clash := by
  have hlookup : table.owners.lookup node.key.className = some owner.key := by
    rw [h.lookup, howner]
    rfl
  obtain ⟨hclass, front, back, rfl, hfront⟩ := List.find?_eq_some_iff_append.1 howner
  refine ⟨_, ?_, front, owner, back, node, after, rfl, h.oneKey, ?_, beq_iff_eq.1 hclass, hkey, rfl⟩
  · rw [RuleTable.add_eq_of_lookup_eq_some hexplicit hlookup, if_neg hkey]
  · simpa using hfront

/-- **What comes of collecting.** Elements are recorded up to the first clash. -/
theorem foldlM_add (h : table.Records nodes) (elements : List Node) :
    (∃ next, elements.foldlM RuleTable.add table = .ok next ∧
      next.Records (nodes ++ generated elements)) ∨
    ∃ clash, elements.foldlM RuleTable.add table = .error clash ∧
      IsClassClash (nodes ++ generated elements) clash := by
  -- induction on the elements, with those recorded before them in front
  induction elements generalizing nodes table with
  | nil =>
    rw [generated, List.filter_nil, List.append_nil]
    exact .inl ⟨table, rfl, h⟩
  | cons node elements ih =>
    rw [List.foldlM_cons]
    cases hexplicit : explicitClass? node with
    | some c =>
      have hsome : (explicitClass? node).isSome = true := by rw [hexplicit]; rfl
      have hrest : generated (node :: elements) = generated elements := by
        rw [generated, List.filter_cons, hexplicit]
        rfl
      rw [RuleTable.add_eq_of_isSome table hsome, hrest]
      exact ih h
    | none =>
      have hrest : generated (node :: elements) = [node] ++ generated elements := by
        rw [generated, List.filter_cons, hexplicit]
        rfl
      have hnext : ∀ {next : RuleTable}, table.add node = .ok next →
          (table.add node >>= fun t => elements.foldlM RuleTable.add t) =
            elements.foldlM RuleTable.add next := by
        intro next hadd
        rw [hadd]
        rfl
      rw [hrest, ← List.append_assoc]
      cases hfind : nodes.find? fun other => other.key.className == node.key.className with
      | none =>
        have hnew : ∀ other ∈ nodes, other.key.className ≠ node.key.className := by
          simpa using hfind
        obtain ⟨next, hadd, hrecords⟩ := h.add_of_new hexplicit hnew
        rw [hnext hadd]
        exact ih hrecords
      | some owner =>
        by_cases hkey : owner.key = node.key
        · obtain ⟨hadd, hrecords⟩ := h.add_of_same hexplicit hfind hkey
          rw [hnext hadd]
          exact ih hrecords
        · obtain ⟨clash, hadd, hclash⟩ := h.add_of_clash hexplicit hfind hkey (generated elements)
          rw [hadd, List.append_assoc]
          exact .inr ⟨clash, rfl, hclash⟩

/-! ## Rules of a forest -/

/-- Where a class clashes, not every class has one key. -/
theorem IsClassClash.not_oneKeyPerClass {clash : ClassClash} (h : IsClassClash nodes clash) :
    ¬OneKeyPerClass nodes := by
  obtain ⟨front, owner, back, node, after, rfl, -, -, hclass, hkey, -⟩ := h
  exact fun honce => hkey (honce owner (by simp) node (by simp) hclass)

/-- Collecting the rules of a forest goes well or ends at the first clash. -/
theorem rules_cases (forest : Forest) :
    (OneKeyPerClass (generated (elements forest)) ∧
      rules forest = .ok ((firstOfKeys (generated (elements forest))).filterMap ownRule?)) ∨
    ∃ clash, rules forest = .error clash ∧ IsClassClash (generated (elements forest)) clash := by
  rw [rules]
  rcases foldlM_add RuleTable.records_nil (elements forest) with
    ⟨table, htable, hrecords⟩ | ⟨clash, herror, hclash⟩
  · rw [List.nil_append] at hrecords
    rw [htable, ← hrecords.rules]
    exact .inl ⟨hrecords.oneKey, rfl⟩
  · rw [List.nil_append] at hclash
    rw [herror]
    exact .inr ⟨clash, rfl, hclash⟩

/-- Rules that are collected are those of the first nodes of the keys. -/
theorem eq_of_rules_eq_ok {forest : Forest} {found : List Rule} (h : rules forest = .ok found) :
    OneKeyPerClass (generated (elements forest)) ∧
      found = (firstOfKeys (generated (elements forest))).filterMap ownRule? := by
  rcases rules_cases forest with ⟨honce, hrules⟩ | ⟨clash, hrules, -⟩
  · rw [hrules, Except.ok.injEq] at h
    exact ⟨honce, h.symm⟩
  · rw [hrules] at h
    contradiction

/-- The rules of a forest are collected as long as no class is generated for two keys. -/
theorem rules_eq_ok {forest : Forest} (h : OneKeyPerClass (generated (elements forest))) :
    rules forest = .ok ((firstOfKeys (generated (elements forest))).filterMap ownRule?) := by
  rcases rules_cases forest with ⟨-, hrules⟩ | ⟨clash, -, hclash⟩
  · exact hrules
  · exact absurd h hclash.not_oneKeyPerClass

/-- Without explicit classes, the rules are those of the nodes that declare anything. -/
theorem filterMap_ownRule?_eq (h : ∀ node ∈ nodes, explicitClass? node = none) :
    nodes.filterMap ownRule? =
      (nodes.filter fun node => !(declarations node).isEmpty).map fun node =>
        ⟨node.key.className, declarations node⟩ := by
  induction nodes with
  | nil => rfl
  | cons node nodes ih =>
    rw [List.forall_mem_cons] at h
    rw [List.filterMap_cons, List.filter_cons, ih h.2, ownRule?, h.1]
    cases (declarations node).isEmpty <;> rfl

/-- Where no class is generated for two keys, different keys have different classes. -/
theorem nodup_className_firstOfKeys (h : OneKeyPerClass nodes) :
    ((firstOfKeys nodes).map fun node => node.key.className).Nodup := by
  have hkeys := List.pairwise_map.1 (nodup_key_firstOfKeys nodes)
  refine List.pairwise_map.2 (hkeys.imp_of_mem fun {a b} ha hb hne hclass => hne ?_)
  exact h a (mem_of_mem_firstOfKeys ha) b (mem_of_mem_firstOfKeys hb) hclass

/-- A node whose key does not come earlier is the first one of the key. -/
theorem mem_firstOfKeys {before after : List Node}
    (h : ∀ other ∈ before, other.key ≠ node.key) :
    node ∈ firstOfKeys (before ++ node :: after) := by
  rw [firstOfKeys_append, firstOfKeys, List.filter_cons, contains_key_eq_false h]
  exact List.mem_append_right _ List.mem_cons_self

/-- In the plain dialect the style attribute of an element holds its declarations on one line, if it
has any. -/
theorem styleValue?_of_html {options : Options} (h : options.dialect = .html) (node : Node) :
    styleValue? options node =
      if declarations node = [] then none
      else some (.quoted (" ".intercalate ((declarations node).map declarationText))) := by
  rw [styleValue?, declarations, h]
  cases effectiveStyle? node with
  | none => rfl
  | some style =>
    have hvalid : style.hasValid = true ↔ ¬style.declarations = [] := by
      rw [Style.hasValid_iff, Style.declarations_eq, List.map_eq_nil_iff]
    rw [Option.bind_some]
    dsimp only
    by_cases hnone : style.declarations = []
    · rw [if_neg (mt hvalid.1 (not_not.2 hnone)), if_pos hnone]
    · rw [if_pos (hvalid.2 hnone), if_neg hnone]
      cases options.styleMode <;> rfl

/-- A list with two items of one key and with an item that has an explicit class, all styled. -/
def repeatedItems : Forest :=
  [{ kind := .container, key := .number 0, tag := "ul", children := [
      { kind := .container, key := .number 1, tag := "li"
        props := some { style := .ofList [("margin", .text "4px")] } },
      { kind := .container, key := .number 1, tag := "li"
        props := some { style := .ofList [("color", .text "red")] } },
      { kind := .container, key := .number 2, tag := "li"
        props := some { className := some "last", style := .ofList [("color", .text "blue")] } }] }]

end PageTree.Markup
