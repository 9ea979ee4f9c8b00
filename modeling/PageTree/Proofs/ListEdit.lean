import PageTree.Edit.ListEdit
import PageTree.Proofs.Spot

/-! # What a change of a list of siblings does

Every change is made at one place: a block of nodes goes, and the nodes that the change brings in
come in its stead. **`ListEdit.Place`** says which place that is and **`ListEdit.Fails`** when a
change has none. A change succeeds exactly at its place (**`ListEdit.apply_eq_ok_iff`**) and fails
exactly when it has none (**`ListEdit.apply_eq_error_iff`**). Main statement:
`ListEdit.apply_accounts`, nothing is lost, nothing is there twice, and what stays keeps its
order. -/

namespace PageTree

namespace ListEdit

variable {change : ListEdit} {forest result removed front back : Forest} {key : Key} {node : Node}

/-! ## Places -/

/-- The place of a change: what stands in front of it, the nodes that go, and what stands behind
it. -/
inductive Place : ListEdit → Forest → Forest → Forest → Prop where
  /-- A node comes in where as many stand in front of it as its index says, and none goes. -/
  | insert {index : UInt64} {node : Node} {front back : Forest} :
      front.length = index.toNat → Place (.insert index node) front [] back
  /-- The first node with the key goes. -/
  | remove {key : Key} {old : Node} {front back : Forest} :
      (∀ other ∈ front, other.key ≠ key) → old.key = key → Place (.remove key) front [old] back
  /-- The first node with the key goes, and the other one stands there. -/
  | replace {key : Key} {old node : Node} {front back : Forest} :
      (∀ other ∈ front, other.key ≠ key) → old.key = key →
        Place (.replace key node) front [old] back
  /-- Nodes come in at the end, and none goes. -/
  | append {nodes front : Forest} : Place (.append nodes) front [] []
  /-- All nodes go. -/
  | clear {all : Forest} : Place .clear [] all []

/-- A list of siblings has no place for a change, and why. -/
inductive Fails : ListEdit → Forest → EditError → Prop where
  /-- The index is past the end. -/
  | insert {index : UInt64} {node : Node} {forest : Forest} : forest.length < index.toNat →
      Fails (.insert index node) forest (.indexOutOfBounds index.toNat forest.length)
  /-- No node has the key. -/
  | remove {key : Key} {forest : Forest} : (∀ other ∈ forest, other.key ≠ key) →
      Fails (.remove key) forest (.nodeNotFound key)
  /-- No node has the key. -/
  | replace {key : Key} {node : Node} {forest : Forest} : (∀ other ∈ forest, other.key ≠ key) →
      Fails (.replace key node) forest (.nodeNotFound key)

/-! ## Replacing -/

/-- The first node with the key gives way to the new one, in its place. -/
theorem replaceFirst?_append {old : Node} (node : Node) (right : Forest)
    (h : ∀ other ∈ front, other.key ≠ key) (hold : old.key = key) :
    replaceFirst? key node (front ++ old :: right) = some (old, front ++ node :: right) := by
  induction front with
  | nil => rw [List.nil_append, replaceFirst?, if_pos hold, List.nil_append]
  | cons other left ih =>
    rw [List.cons_append, replaceFirst?, if_neg (h other List.mem_cons_self),
      ih fun n hn => h n (List.mem_cons_of_mem _ hn)]
    rfl

/-- Where no node has the key, none is replaced. -/
theorem replaceFirst?_eq_none (node : Node) (h : ∀ other ∈ forest, other.key ≠ key) :
    replaceFirst? key node forest = none := by
  induction forest with
  | nil => rfl
  | cons first forest ih =>
    rw [List.forall_mem_cons] at h
    rw [replaceFirst?, if_neg h.1, ih h.2, Option.map_none]

/-- Where a key occurs among siblings, some node is the first to have it. -/
theorem exists_first_of_mem (h : ∃ node ∈ forest, node.key = key) :
    ∃ left node right, forest = left ++ node :: right ∧ (∀ other ∈ left, other.key ≠ key) ∧
      node.key = key := by
  cases hfind : List.find? (fun node => node.key == key) forest with
  | none =>
    obtain ⟨node, hnode, hkey⟩ := h
    have hne := List.find?_eq_none.1 hfind node hnode
    exact absurd (beq_iff_eq.2 hkey) hne
  | some node =>
    obtain ⟨hkey, left, right, hforest, hleft⟩ := List.find?_eq_some_iff_append.1 hfind
    refine ⟨left, node, right, hforest, fun other hother => ?_, beq_iff_eq.1 hkey⟩
    simpa using hleft other hother

/-! ## Changes at their places -/

/-- At its place a change takes nodes out and puts those that it brings in there. -/
theorem Place.apply_eq (h : change.Place front removed back) :
    change.apply (front ++ removed ++ back) = .ok (front ++ change.added ++ back, removed) := by
  cases h with
  | @insert index node _ _ hindex =>
    rw [List.append_nil, apply, if_pos]
    · simp [added, ← hindex]
    · rw [List.length_append, hindex]
      exact Nat.le_add_right _ _
  | remove hfront hold =>
    rw [List.append_assoc, List.singleton_append, apply,
      Forest.removeFirst?_append back hfront hold]
    simp [added]
  | @replace _ _ node _ _ hfront hold =>
    rw [List.append_assoc, List.singleton_append, apply, replaceFirst?_append node back hfront hold]
    simp [added]
  | append => simp [apply, added]
  | clear => simp [apply, added]

/-- Without a place a change fails. -/
theorem Fails.apply_eq {error : EditError} (h : change.Fails forest error) :
    change.apply forest = .error error := by
  cases h with
  | insert hindex => rw [apply, if_neg (Nat.not_le.2 hindex)]
  | remove hkey => rw [apply, Forest.removeFirst?_eq_none hkey]
  | @replace _ node _ hkey => rw [apply, replaceFirst?_eq_none node hkey]

/-- A list of siblings has a place for a change, or it has none. -/
theorem place_or_fails (change : ListEdit) (forest : Forest) :
    (∃ front removed back, change.Place front removed back ∧ forest = front ++ removed ++ back) ∨
      ∃ error, change.Fails forest error := by
  -- a change that goes by a key is made at the first node that has it
  have hkeyed : ∀ key : Key,
      (∃ left old right, forest = left ++ [old] ++ right ∧ (∀ other ∈ left, other.key ≠ key) ∧
        old.key = key) ∨ ∀ other ∈ forest, other.key ≠ key := by
    intro key
    by_cases h : ∃ node ∈ forest, node.key = key
    · obtain ⟨left, old, right, hforest, hleft, hold⟩ := exists_first_of_mem h
      exact .inl ⟨left, old, right, by simpa using hforest, hleft, hold⟩
    · exact .inr (by simpa using h)
  cases change with
  | insert index node =>
    by_cases hindex : index.toNat ≤ forest.length
    · exact .inl ⟨forest.take index.toNat, [], forest.drop index.toNat,
        .insert (List.length_take_of_le hindex), by simp⟩
    · exact .inr ⟨_, .insert (Nat.not_le.1 hindex)⟩
  | remove key =>
    rcases hkeyed key with ⟨left, old, right, hforest, hleft, hold⟩ | hnone
    · exact .inl ⟨left, [old], right, .remove hleft hold, hforest⟩
    · exact .inr ⟨_, .remove hnone⟩
  | replace key node =>
    rcases hkeyed key with ⟨left, old, right, hforest, hleft, hold⟩ | hnone
    · exact .inl ⟨left, [old], right, .replace hleft hold, hforest⟩
    · exact .inr ⟨_, .replace hnone⟩
  | append nodes => exact .inl ⟨forest, [], [], .append, by simp⟩
  | clear => exact .inl ⟨[], forest, [], .clear, by simp⟩

/-- **A change succeeds at its place**, and only there. -/
theorem apply_eq_ok_iff :
    change.apply forest = .ok (result, removed) ↔
      ∃ front back, change.Place front removed back ∧ forest = front ++ removed ++ back ∧
        result = front ++ change.added ++ back := by
  constructor
  · intro h
    rcases place_or_fails change forest with ⟨front, gone, back, hplace, rfl⟩ | ⟨error, hfails⟩
    · rw [hplace.apply_eq] at h
      obtain ⟨rfl, rfl⟩ := Prod.mk.inj (Except.ok.inj h)
      exact ⟨front, back, hplace, rfl, rfl⟩
    · rw [hfails.apply_eq] at h
      contradiction
  · rintro ⟨front, back, hplace, rfl, rfl⟩
    exact hplace.apply_eq

/-- **A change fails without a place**, and only then. -/
theorem apply_eq_error_iff {error : EditError} :
    change.apply forest = .error error ↔ change.Fails forest error := by
  constructor
  · intro h
    rcases place_or_fails change forest with ⟨front, gone, back, hplace, rfl⟩ | ⟨other, hfails⟩
    · rw [hplace.apply_eq] at h
      contradiction
    · rw [hfails.apply_eq] at h
      obtain rfl := Except.error.inj h
      exact hfails
  · exact Fails.apply_eq

/-! ## Accounting -/

/-- Two blocks that stand for one another leave as much when each comes with the other. -/
theorem perm_exchange (front gone come back : Forest) :
    (front ++ come ++ back ++ gone).Perm (front ++ gone ++ back ++ come) := by
  have hblocks : (come ++ (back ++ gone)).Perm (gone ++ (back ++ come)) :=
    calc (come ++ (back ++ gone)).Perm (back ++ gone ++ come) := List.perm_append_comm
      (back ++ gone ++ come).Perm (gone ++ back ++ come) := List.perm_append_comm.append_right come
      _ = gone ++ (back ++ come) := List.append_assoc gone back come
  simpa only [List.append_assoc] using hblocks.append_left front

/-- **A change of a list loses and duplicates nothing.** If it succeeds, the new list and the nodes
taken out are, in some order, the old list and the nodes that the change brings in. What stays is
in both lists, in the same order: nodes in front of the place of the change and nodes behind it, and
at the place stand the nodes that come in where those taken out stood. It fails exactly when an
index is past the end of the list or no node has the key it asks for. -/
theorem apply_accounts (change : ListEdit) (forest : Forest) :
    (∀ result removed, change.apply forest = .ok (result, removed) →
      (result ++ removed).Perm (forest ++ change.added) ∧
      ∃ front back, change.Place front removed back ∧
        (front ++ back).Sublist forest ∧ (front ++ back).Sublist result ∧
        forest = front ++ removed ++ back ∧ result = front ++ change.added ++ back) ∧
    ∀ error, change.apply forest = .error error ↔ change.Fails forest error := by
  refine ⟨fun result removed h => ?_, fun error => apply_eq_error_iff⟩
  obtain ⟨front, back, hplace, hforest, hresult⟩ := apply_eq_ok_iff.1 h
  have hstays : ∀ block : Forest, (front ++ back).Sublist (front ++ block ++ back) := by
    intro block
    rw [List.append_assoc]
    exact (List.sublist_append_right block back).append_left front
  refine ⟨?_, front, back, hplace, ?_, ?_, hforest, hresult⟩
  · rw [hforest, hresult]
    exact perm_exchange front removed change.added back
  · rw [hforest]
    exact hstays removed
  · rw [hresult]
    exact hstays change.added

/-- In a list with two items of one key the first of them is replaced. A key that no item has is
refused, and so is an index behind the end. -/
theorem apply_accounts_of_repeated_key :
    let item (n : UInt64) := Node.container "li" (.number n)
    let again := Node.single "hr" (.number 2)
    let list : Forest := [item 1, item 2, again, item 3]
    let swap := ListEdit.replace (.number 2) (item 9)
    (swap.apply list = .ok ([item 1, item 9, again, item 3], [item 2]) ∧
      ([item 1, item 9, again, item 3] ++ [item 2]).Perm (list ++ [item 9]) ∧
      ∃ front back, swap.Place front [item 2] back ∧ (front ++ back).Sublist list ∧
        (front ++ back).Sublist [item 1, item 9, again, item 3] ∧
        list = front ++ [item 2] ++ back ∧
        [item 1, item 9, again, item 3] = front ++ [item 9] ++ back) ∧
    (remove (.number 4)).Fails list (.nodeNotFound (.number 4)) ∧
    (insert 5 again).Fails list (.indexOutOfBounds 5 4) := by
  intro item again list swap
  have hswap : swap.apply list = .ok ([item 1, item 9, again, item 3], [item 2]) := rfl
  exact ⟨⟨hswap, (apply_accounts swap list).1 _ _ hswap⟩,
    ((apply_accounts (remove (.number 4)) list).2 _).1 rfl,
    ((apply_accounts (insert 5 again) list).2 _).1 rfl⟩

end ListEdit

end PageTree
