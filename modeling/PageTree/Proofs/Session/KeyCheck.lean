import PageTree.Proofs.Session.Consistency

/-! # The check of keys is exact

A session refuses keys from outside exactly when they would spoil the forest. **`ExactCheck`** says
this of one command: it succeeds exactly when the forest that it asks for has distinct class names,
and else it names the first key coming in that clashes. Taking a forest in, merging an edited copy
and changing the children of a parent are such commands, in every session that commands lead to. -/

namespace PageTree

/-- The keys of a forest that stay when some leave it. -/
def Forest.keysWithout (leaving : List Key) (forest : Forest) : List Key :=
  (Forest.keys forest).filter fun key => !leaving.contains key

/-! ## Changes that can be made -/

namespace ListEdit

/-- A list of siblings has what a change needs. -/
def Applicable (children : Forest) : ListEdit → Prop
  | .insert index _ => index.toNat ≤ children.length
  | .remove key => ∃ node ∈ children, node.key = key
  | .replace key _ => ∃ node ∈ children, node.key = key
  | .append _ => True
  | .clear => True

/-- A change can be made exactly when the list has what it needs. -/
theorem exists_apply_eq_ok_iff {change : ListEdit} {children : Forest} :
    (∃ children' removed, change.apply children = .ok (children', removed)) ↔
      change.Applicable children := by
  constructor
  · rintro ⟨children', removed, h⟩
    obtain ⟨front, back, hplace, rfl, -⟩ := apply_eq_ok_iff.1 h
    cases hplace with
    | insert hindex => simp [Applicable, hindex]
    | remove _ hkey => exact ⟨_, by simp, hkey⟩
    | replace _ hkey => exact ⟨_, by simp, hkey⟩
    | append => trivial
    | clear => trivial
  · intro h
    rcases place_or_fails change children with ⟨front, removed, back, hplace, rfl⟩ | ⟨error, hfails⟩
    · exact ⟨_, _, hplace.apply_eq⟩
    · -- what makes a change fail is that the list has not what it needs
      cases hfails with
      | insert hindex => exact absurd hindex (Nat.not_lt.2 h)
      | remove hnone =>
        obtain ⟨node, hnode, hkey⟩ := h
        exact absurd hkey (hnone node hnode)
      | replace hnone =>
        obtain ⟨node, hnode, hkey⟩ := h
        exact absurd hkey (hnone node hnode)

end ListEdit

namespace Session

variable {s : Session} {spot : Spot} {gone come : Forest}

/-- The children of a parent that may have some: the roots, or those of a container. -/
def IsListOf (s : Session) (parent : Option Key) (children : Forest) : Prop :=
  match parent with
  | none => children = s.forest
  | some key => ∃ node, Forest.find? key s.forest = some node ∧ node.kind = .container ∧
      children = node.children

/-- The children of a parent that may have some are found. -/
theorem childrenOf_of_isListOf {parent : Option Key} {children : Forest}
    (h : s.IsListOf parent children) : s.childrenOf parent = .ok children := by
  cases parent with
  | none => exact congrArg Except.ok h.symm
  | some key =>
    obtain ⟨node, hfind, hkind, rfl⟩ := h
    rw [childrenOf, hfind]
    exact if_pos hkind

/-! ## Exact checks -/

/-- A command that asks for a forest succeeds exactly when its class names are distinct, and else
fails with the first of the keys coming in that clashes. -/
structure ExactCheck {α : Type} (result : Except EditError α) (forest : Forest)
    (kept incoming : List Key) : Prop where
  /-- When the command succeeds. -/
  ok_iff : (∃ a, result = .ok a) ↔ forest.DistinctClasses
  /-- How it fails. -/
  error : ¬forest.DistinctClasses →
    ∃ key, result = .error (.duplicateKey key) ∧ IsFirstClash kept incoming key

/-- With distinct class names, the keys that stay when the nodes in a place leave are those around
the place. -/
theorem mem_keysWithout_fill (h : (spot.fill gone).DistinctClasses) (key : Key) :
    key ∈ Forest.keysWithout (Forest.keys gone) (spot.fill gone) ↔ key ∈ spot.keysAround := by
  have hdisjoint := (distinctClasses_fill_iff.1 h).2.2
  have hnot : key ∈ spot.keysAround → key ∉ Forest.keys gone :=
    fun haround hgone => hdisjoint key hgone (className_mem_classNames haround)
  rw [Forest.keysWithout, List.mem_filter, Spot.keys_fill, Bool.not_eq_true', ← Bool.not_eq_true,
    List.contains_iff_mem]
  simp only [Spot.keysAround, List.mem_append] at hnot ⊢
  constructor
  · rintro ⟨hbefore | hgone | hafter, hstays⟩
    · exact .inl hbefore
    · exact absurd hgone hstays
    · exact .inr hafter
  · intro haround
    exact ⟨haround.imp_right .inr, hnot haround⟩

/-- A command that checks the keys coming in against those around a place checks exactly. -/
theorem exactCheck_fill {α : Type} {result : Except EditError α} {a : α}
    (hdistinct : (spot.fill gone).DistinctClasses)
    (hresult : result =
      match firstClash? (classNames spot.keysAround) (Forest.keys come) with
      | some key => .error (.duplicateKey key)
      | none => .ok a) :
    ExactCheck result (spot.fill come) (Forest.keysWithout (Forest.keys gone) (spot.fill gone))
      (Forest.keys come) := by
  have hkept : firstClash? (classNames spot.keysAround) (Forest.keys come) =
      firstClash? (classNames (Forest.keysWithout (Forest.keys gone) (spot.fill gone)))
        (Forest.keys come) := by
    refine firstClash?_congr fun name => ?_
    simp only [mem_classNames, mem_keysWithout_fill hdistinct]
  have hnone : firstClash? (classNames spot.keysAround) (Forest.keys come) = none ↔
      (spot.fill come).DistinctClasses := by
    rw [← firstClash?_takenWithout_fill hdistinct]
    exact firstClash?_fill_eq_none_iff hdistinct
  -- whether the check finds a clash decides the result, and whether the class names are distinct
  cases hclash : firstClash? (classNames spot.keysAround) (Forest.keys come) with
  | none =>
    rw [hclash] at hresult hnone
    have hforest := hnone.1 rfl
    exact ⟨iff_of_true ⟨a, hresult⟩ hforest, fun hnot => absurd hforest hnot⟩
  | some key =>
    have hfirst := isFirstClash_of_firstClash? (hkept.symm.trans hclash)
    rw [hclash] at hresult hnone
    have hforest : ¬(spot.fill come).DistinctClasses := fun h => Option.some_ne_none key (hnone.2 h)
    refine ⟨iff_of_false ?_ hforest, fun _ => ⟨key, hresult, hfirst⟩⟩
    rintro ⟨b, hb⟩
    rw [hresult] at hb
    contradiction

/-- Taking a forest in checks exactly. -/
theorem exactCheck_ofForest (forest : Forest) (reclaim : Bool) :
    ExactCheck (ofForest forest reclaim) forest [] (Forest.keys forest) := by
  have hempty : ((Spot.top [] []).fill []).DistinctClasses := List.nodup_nil
  have hresult : ofForest forest reclaim =
      match firstClash? (classNames (Spot.top [] []).keysAround) (Forest.keys forest) with
      | some key => .error (.duplicateKey key)
      | none => .ok { forest := forest, slots := .ofForest forest, reclaim := reclaim } := rfl
  have hcheck := exactCheck_fill hempty hresult
  rwa [Spot.fill, List.nil_append, List.append_nil] at hcheck

/-- Merging an edited copy checks exactly. -/
theorem Consistent.exactCheck_edit (hs : s.Consistent) {edited current : Node}
    (hfind : Forest.find? edited.key s.forest = some current) :
    ∃ forest', Forest.update? edited.key (fun _ => edited) s.forest = some forest' ∧
      ExactCheck (s.edit edited) forest' (Forest.keysWithout current.keys s.forest)
        edited.keys := by
  obtain ⟨spot, hleads, hkey, hforest⟩ := Forest.exists_spot_of_find? hfind
  have hdistinct := hs.distinct
  rw [hforest] at hdistinct
  refine ⟨spot.fill [edited], ?_, ?_⟩
  · rw [hforest, hleads.update?_fill hkey]
  · have hedit := edit_eq_of_leadsTo hleads hkey hforest
    rw [hforest, ← Forest.keys_singleton current, ← Forest.keys_singleton edited,
      firstClash?_takenWithout_fill hdistinct] at hedit
    rw [hforest, ← Forest.keys_singleton current, ← Forest.keys_singleton edited]
    exact exactCheck_fill hdistinct hedit

/-- Changing the children of a parent checks exactly. -/
theorem Consistent.exactCheck_editChildren (hs : s.Consistent) {parent : Option Key}
    {change : ListEdit} {children children' removed : Forest}
    (hchildren : s.childrenOf parent = .ok children)
    (happly : change.apply children = .ok (children', removed)) :
    ExactCheck (s.editChildren parent change) (s.withChildrenOf parent children')
      (Forest.keysWithout (Forest.keys removed) s.forest) (Forest.keys change.added) := by
  have hedit := editChildren_eq hchildren happly
  obtain ⟨inner, rfl, rfl⟩ := exists_spot_of_apply happly
  obtain ⟨spot, hforest, hwith⟩ := exists_spot_of_childrenOf hchildren
  have hdistinct := hs.distinct
  rw [hforest] at hdistinct
  rw [hs.firstClash?_leavingKeys hforest happly] at hedit
  rw [hwith, hforest]
  exact exactCheck_fill hdistinct hedit

/-- A merge that succeeds tells that the node was there. -/
theorem eq_true_of_edit_eq_ok {edited current : Node} {there : Bool} {s' : Session}
    (hfind : Forest.find? edited.key s.forest = some current)
    (h : s.edit edited = .ok (there, s')) : there = true := by
  rcases edit_eq_ok h with ⟨hnone, -, -⟩ | ⟨spot, current', -, -, -, -, hthere, -⟩
  · rw [hfind] at hnone
    contradiction
  · exact hthere

/-- **Keys are checked exactly.** A forest is taken in exactly when its class names are distinct. In
any session that commands lead to, a merge of an edited copy whose node is there succeeds exactly
when the class names are distinct with the copy in the place of the node, and a change of a list of
children that has what the change needs succeeds exactly when they are with the change made. Else
the first key coming in that clashes with a key that stays or with an earlier one is refused. -/
theorem exactCheck_of_reachable (hs : s.Reachable) :
    (∀ forest reclaim,
      ExactCheck (ofForest forest reclaim) forest [] (Forest.keys forest)) ∧
    (∀ edited current, Forest.find? edited.key s.forest = some current →
      (∀ there s', s.edit edited = .ok (there, s') → there = true) ∧
      ∃ forest', Forest.update? edited.key (fun _ => edited) s.forest = some forest' ∧
        ExactCheck (s.edit edited) forest' (Forest.keysWithout current.keys s.forest)
          edited.keys) ∧
    (∀ parent children (change : ListEdit), s.IsListOf parent children →
      change.Applicable children →
      ∃ children' removed, change.apply children = .ok (children', removed) ∧
        ExactCheck (s.editChildren parent change) (s.withChildrenOf parent children')
          (Forest.keysWithout (Forest.keys removed) s.forest) (Forest.keys change.added)) := by
  have hconsistent := consistent_of_reachable hs
  refine ⟨exactCheck_ofForest, ?_, ?_⟩
  · intro edited current hfind
    exact ⟨fun there s' => eq_true_of_edit_eq_ok hfind, hconsistent.exactCheck_edit hfind⟩
  · intro parent children change hlist happlicable
    obtain ⟨children', removed, happly⟩ := ListEdit.exists_apply_eq_ok_iff.2 happlicable
    have hchildren := childrenOf_of_isListOf hlist
    exact ⟨children', removed, happly, hconsistent.exactCheck_editChildren hchildren happly⟩

/-- The check in a session with a container and a text taken in under a name that is spelled like a
class: the name stands in the way of its number only while it stays. -/
theorem exactCheck_of_run :
    let start : Session :=
      { forest := [.text "a" (.name "n7")], slots := .ofForest [.text "a" (.name "n7")] }
    let s := start.after (.newContainer none "div")
    let seven := Node.text "b" (.number 7)
    s.Reachable ∧
    s.IsListOf none s.forest ∧ (ListEdit.append [seven]).Applicable s.forest ∧
    (∃ children' removed, (ListEdit.append [seven]).apply s.forest = .ok (children', removed) ∧
      ExactCheck (s.editChildren none (.append [seven])) (s.withChildrenOf none children')
        (Forest.keysWithout (Forest.keys removed) s.forest) [.number 7]) ∧
    (ListEdit.replace (.name "n7") seven).Applicable s.forest ∧
    ∃ children' removed,
      (ListEdit.replace (.name "n7") seven).apply s.forest = .ok (children', removed) ∧
      ExactCheck (s.editChildren none (.replace (.name "n7") seven))
        (s.withChildrenOf none children')
        (Forest.keysWithout (Forest.keys removed) s.forest) [.number 7] := by
  intro start s seven
  have hofForest : ofForest start.forest true = .ok start := rfl
  have hs : s.Reachable := .after _ (.ofForest hofForest) (by decide)
  have happend : (ListEdit.append [seven]).Applicable s.forest := trivial
  have hreplace : (ListEdit.replace (.name "n7") seven).Applicable s.forest :=
    ⟨.text "a" (.name "n7"), List.mem_cons_self, rfl⟩
  obtain ⟨-, -, hchange⟩ := exactCheck_of_reachable hs
  exact ⟨hs, rfl, happend, hchange none s.forest _ rfl happend, hreplace,
    hchange none s.forest _ rfl hreplace⟩

end Session

end PageTree
