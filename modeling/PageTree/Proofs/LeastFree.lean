import Mathlib.Order.Bounds.Defs
import PageTree.Proofs.Keyless

/-! # The least free slots

Which slots are handed out. **`Slots.AreLeastFree`** says that numbers, in ascending order, are the
least of those that are free: none of them is in use, and no free number is left out below one of
them. As long as there is enough room a number handed out is the least free natural, and numbers
handed out one after the other are the least free ones, also when the last of them fills the slots
(**`Slots.handsOutLeast_allocateMany`**). Main statement: `Slots.least_free_handed_out`. -/

namespace PageTree

/-! ## Subtrees -/

/-- The keys of a subtree whose root is met stand in the keys of the forest, in their order. -/
theorem Forest.keys_sublist_of_mem_visited {enter : Node → Bool} {forest : Forest} {node : Node}
    (h : node ∈ Forest.visited enter forest) : node.keys.Sublist (Forest.keys forest) := by
  induction forest using Forest.induction with
  | nil => exact absurd h List.not_mem_nil
  | cons root forest ihc ihf =>
    rw [Forest.visited, List.mem_append, Node.visited_eq, List.mem_cons] at h
    rw [Forest.keys]
    rcases h with (rfl | hbelow) | hrest
    · exact List.sublist_append_left _ _
    · split at hbelow
      · rw [Node.keys_eq root, List.cons_append]
        exact ((ihc hbelow).trans (List.sublist_append_left _ _)).cons _
      · exact absurd hbelow List.not_mem_nil
    · exact (ihf hrest).trans (List.sublist_append_right _ _)

namespace Slots

variable {s t : Slots} {n : UInt64} {ns : List UInt64}

/-! ## Counting -/

/-- A number that is taken into use is one more. -/
theorem size_insert (h : n ∉ s) : (s.insert n).size = s.size + 1 := by
  have hlength : ∀ ms : List UInt64, n ∉ ms → (insertSorted n ms).length = ms.length + 1 := by
    intro ms hms
    induction ms with
    | nil => rfl
    | cons m ms ih =>
      rw [List.mem_cons, not_or] at hms
      rw [insertSorted, if_neg hms.1]
      split
      · rfl
      · rw [List.length_cons, ih hms.2, List.length_cons]
  exact hlength s.used h

/-! ## Least free numbers -/

/-- The naturals that are free. -/
def unused (s : Slots) : Set Nat := {m | ∀ n ∈ s, n.toNat ≠ m}

/-- A number that is free, with everything below it in use, is the least free natural. -/
theorem isLeast_unused (hfree : n ∉ s) (hbelow : ∀ m < n, m ∈ s) : IsLeast s.unused n.toNat := by
  refine ⟨fun m hm heq => hfree (UInt64.toNat_inj.1 heq ▸ hm), fun m hm => ?_⟩
  by_contra hlt
  rw [Nat.not_le] at hlt
  -- a natural below a word is a word itself
  have hword : (UInt64.ofNat m).toNat = m :=
    UInt64.toNat_ofNat_of_lt' (Nat.lt_trans hlt n.toNat_lt)
  exact hm _ (hbelow _ (UInt64.lt_iff_toNat_lt.2 (hword.symm ▸ hlt))) hword

/-- Numbers are the least of those that are free, in ascending order. -/
structure AreLeastFree (s : Slots) (ns : List UInt64) : Prop where
  /-- Each is less than those after it. -/
  ascending : ns.Pairwise (· < ·)
  /-- None is in use. -/
  free : ∀ n ∈ ns, n ∉ s
  /-- Below each of them everything is in use or one of them. -/
  least : ∀ n ∈ ns, ∀ m < n, m ∈ s ∨ m ∈ ns

/-- The least free number comes first, and after it those that are the least when it is in use. -/
theorem AreLeastFree.cons (hfree : n ∉ s) (hbelow : ∀ m < n, m ∈ s)
    (h : (s.insert n).AreLeastFree ns) : s.AreLeastFree (n :: ns) := by
  have hnot : ∀ m ∈ ns, m ≠ n ∧ m ∉ s := by
    intro m hm
    have hfresh := h.free m hm
    rwa [mem_insert, not_or] at hfresh
  refine ⟨List.pairwise_cons.2 ⟨fun m hm => ?_, h.ascending⟩,
    List.forall_mem_cons.2 ⟨hfree, fun m hm => (hnot m hm).2⟩,
    List.forall_mem_cons.2 ⟨fun m hm => .inl (hbelow m hm), fun k hk m hm => ?_⟩⟩
  · have hle : n ≤ m := UInt64.not_lt.1 fun hlt => (hnot m hm).2 (hbelow m hlt)
    exact UInt64.lt_of_le_of_ne hle (Ne.symm (hnot m hm).1)
  · rcases h.least k hk m hm with hin | hmem
    · exact (mem_insert.1 hin).elim (fun heq => .inr (heq ▸ List.mem_cons_self)) .inl
    · exact .inr (List.mem_cons_of_mem _ hmem)

/-! ## Handing out -/

/-- The keys handed out from slots are the least free numbers in ascending order, and exactly these
are in use as well afterwards. -/
def HandsOutLeast (s t : Slots) (keys : List Key) : Prop :=
  ∃ ns : List UInt64, keys = ns.map .number ∧ s.AreLeastFree ns ∧ ∀ n, n ∈ t ↔ n ∈ s ∨ n ∈ ns

/-- With room for all of them, keys handed out one after the other are the least free numbers. -/
theorem handsOutLeast_allocateMany {count : Nat} (h : s.size + count ≤ 2 ^ 64) :
    s.HandsOutLeast (s.allocateMany count).2 (s.allocateMany count).1 := by
  induction count generalizing s with
  | zero => exact ⟨[], rfl, ⟨.nil, by simp, by simp⟩, by simp [allocateMany]⟩
  | succ count ih =>
    have hroom : s.HasRoom := by
      rw [HasRoom]
      omega
    obtain ⟨n, halloc, hfree, hbelow⟩ := exists_allocate_eq hroom
    -- what is handed out next takes one slot, and leaves enough for the others
    have hrest : (s.insert n).size + count ≤ 2 ^ 64 := by
      rw [size_insert hfree]
      omega
    obtain ⟨ns, hkeys, hleast, huse⟩ := ih hrest
    rw [allocateMany_succ, halloc]
    refine ⟨n :: ns, ?_, hleast.cons hfree hbelow, fun m => ?_⟩
    · rw [hkeys, List.map_cons]
    · rw [huse, mem_insert, List.mem_cons, or_comm (a := m = n), or_assoc]

/-- As many keys are handed out as are asked for. -/
theorem length_allocateMany (s : Slots) (count : Nat) :
    (s.allocateMany count).1.length = count := by
  induction count generalizing s with
  | zero => rfl
  | succ count ih => rw [allocateMany_succ, List.length_cons, ih]

/-- With room for all of them, the keys of a copy are the least free numbers. -/
theorem handsOutLeast_rekey {node : Node} (h : s.size + node.count ≤ 2 ^ 64) :
    s.HandsOutLeast (s.rekey node).2 (s.rekey node).1.keys := by
  obtain ⟨hkeys, hslots⟩ := Prod.mk.inj (keys_rekey s node)
  rw [hkeys, hslots]
  exact handsOutLeast_allocateMany h

/-- Where the keys of a forest are ascending numbers, the key of a node comes before those below
it. -/
theorem lt_of_mem_keys_children {forest : Forest} (hkeys : Forest.keys forest = ns.map .number)
    (hascending : ns.Pairwise (· < ·)) {enter : Node → Bool} {above : Node}
    (habove : above ∈ Forest.visited enter forest) :
    ∀ key ∈ Forest.keys above.children, ∃ n m, above.key = .number n ∧ key = .number m ∧ n < m := by
  have hsublist := Forest.keys_sublist_of_mem_visited habove
  rw [hkeys, List.sublist_map_iff] at hsublist
  obtain ⟨own, hown, heq⟩ := hsublist
  rw [Node.keys_eq] at heq
  obtain ⟨n, ms, rfl, hn, hms⟩ := List.map_eq_cons_iff.1 heq.symm
  intro key hkey
  rw [← hms] at hkey
  obtain ⟨m, hm, rfl⟩ := List.mem_map.1 hkey
  exact ⟨n, m, hn.symm, rfl, List.rel_of_pairwise_cons (hascending.sublist hown) hm⟩

/-- **The least free slots are handed out.** As long as some number is free, the key handed out is
the least free natural, and exactly this number is in use as well afterwards. As long as there is
room for a key for every node of a subtree, its copy is the same but for the keys; the keys of the
copy, a node before its children, are as many of the least free numbers in ascending order as there
are nodes, and exactly these are in use as well afterwards; so a node has a lesser key than every
node below it. -/
theorem least_free_handed_out (s : Slots) :
    (s.HasRoom → ∃ n, s.allocate = (.number n, s.insert n) ∧ IsLeast s.unused n.toNat ∧
      ∀ m, m ∈ s.insert n ↔ m = n ∨ m ∈ s) ∧
    ∀ node : Node, s.size + node.count ≤ 2 ^ 64 →
      let copy := (s.rekey node).1
      copy.keyless = node.keyless ∧
      (∃ ns : List UInt64, copy.keys = ns.map .number ∧ ns.length = node.count ∧
        s.AreLeastFree ns ∧ ∀ n, n ∈ (s.rekey node).2 ↔ n ∈ s ∨ n ∈ ns) ∧
      ∀ above ∈ copy.visited fun _ => true, ∀ key ∈ Forest.keys above.children,
        ∃ n m, above.key = .number n ∧ key = .number m ∧ n < m := by
  refine ⟨fun hroom => ?_, fun node hroom => ?_⟩
  · obtain ⟨n, halloc, hfree, hbelow⟩ := exists_allocate_eq hroom
    exact ⟨n, halloc, isLeast_unused hfree hbelow, fun m => mem_insert⟩
  · obtain ⟨ns, hkeys, hleast, huse⟩ := handsOutLeast_rekey hroom
    have hlength : ns.length = node.count := by
      rw [← length_allocateMany s node.count, ← (Prod.mk.inj (keys_rekey s node)).1, hkeys,
        List.length_map]
    refine ⟨keyless_rekey s node, ⟨ns, hkeys, hlength, hleast, huse⟩, fun above habove => ?_⟩
    -- seen as a forest of one tree, the copy has ascending keys in the order of its nodes
    have hforest : Forest.keys [(s.rekey node).1] = ns.map .number := by
      rw [Forest.keys_singleton, hkeys]
    have hmet : above ∈ Forest.visited (fun _ => true) [(s.rekey node).1] := by
      rw [Forest.visited, Forest.visited, List.append_nil]
      exact habove
    exact lt_of_mem_keys_children hforest hleast.ascending hmet

/-- A list with an item and a line under it, copied where two small numbers and the largest one are
in use. -/
theorem least_free_handed_out_between :
    let s := ((empty.insert 0).insert 2).insert 18446744073709551615
    let item := Node.container "li" (.name "n2") |>.withChildren [Node.text "a" (.name "a")]
    let list := Node.container "ul" (.number 0) |>.withChildren [item, Node.single "hr" (.number 2)]
    let copy := (s.rekey list).1
    (s.HasRoom ∧ ∃ n, s.allocate = (.number n, s.insert n) ∧ IsLeast s.unused n.toNat ∧
      ∀ m, m ∈ s.insert n ↔ m = n ∨ m ∈ s) ∧
    s.size + list.count ≤ 2 ^ 64 ∧ copy.keys = [1, 3, 4, 5].map .number ∧
    copy.keyless = list.keyless ∧
    (∃ ns : List UInt64, copy.keys = ns.map .number ∧ ns.length = list.count ∧
      s.AreLeastFree ns ∧ ∀ n, n ∈ (s.rekey list).2 ↔ n ∈ s ∨ n ∈ ns) ∧
    ∀ above ∈ copy.visited fun _ => true, ∀ key ∈ Forest.keys above.children,
      ∃ n m, above.key = .number n ∧ key = .number m ∧ n < m := by
  intro s item list copy
  obtain ⟨hallocate, hrekey⟩ := least_free_handed_out s
  have hroom : s.HasRoom := by decide
  have hcount : s.size + list.count ≤ 2 ^ 64 := by decide
  exact ⟨⟨hroom, hallocate hroom⟩, hcount, by decide, hrekey list hcount⟩

end Slots

end PageTree
