import Mathlib.Data.List.Sort
import PageTree.Proofs.Spot
import PageTree.Slots

/-! # The supply of slots

What reserving, giving back and handing out do to the set of slots in use. A number is in use after
keys were reserved when it was before or is the slot of one of them (**`Slots.mem_reserveAll`**),
and giving back is the opposite (**`Slots.mem_releaseAll`**). As long as some number is free the one
handed out is the least of them: **`Slots.exists_allocate_eq`**. New keys for a subtree are handed
out one after the other (**`Slots.keys_rekey`**), so they are numbers that were free before, all
different: **`Slots.HandsOut`**. -/

namespace PageTree

/-- The slots that keys take. -/
def slotsOf (keys : List Key) : List UInt64 := keys.filterMap Key.slot?

/-- The slots of keys are those of the single keys. -/
@[simp] theorem mem_slotsOf {keys : List Key} {n : UInt64} :
    n ∈ slotsOf keys ↔ ∃ key ∈ keys, key.slot? = some n :=
  List.mem_filterMap

/-- The slots of keys are that of the first, if it has one, and those of the others. -/
theorem mem_slotsOf_cons {key : Key} {keys : List Key} {n : UInt64} :
    n ∈ slotsOf (key :: keys) ↔ key.slot? = some n ∨ n ∈ slotsOf keys := by
  simp only [mem_slotsOf, List.mem_cons, or_and_right, exists_or, exists_eq_left]

/-- The slots of two lists of keys stand one behind the other. -/
theorem slotsOf_append (keys others : List Key) :
    slotsOf (keys ++ others) = slotsOf keys ++ slotsOf others :=
  List.filterMap_append

/-- Numbers take themselves as slots. -/
theorem slotsOf_map_number (ns : List UInt64) : slotsOf (ns.map .number) = ns := by
  rw [slotsOf, List.filterMap_map]
  exact List.filterMap_some

namespace Slots

variable {s : Slots} {n : UInt64}

/-- Slots are the numbers in use: ascending lists with the same members are the same list. -/
theorem ext_mem {s t : Slots} (h : ∀ n, n ∈ s ↔ n ∈ t) : s = t := by
  obtain ⟨used, ascending⟩ := s
  obtain ⟨used', ascending'⟩ := t
  have hused : used = used' := ascending.eq_of_mem_iff ascending' h
  subst hused
  rfl

/-! ## Reserving and giving back -/

/-- Reserving a key puts its slot in use, if it has one. -/
theorem mem_reserve {key : Key} : n ∈ s.reserve key ↔ n ∈ s ∨ key.slot? = some n := by
  rw [reserve]
  split
  next m hm => rw [mem_insert, hm, Option.some.injEq, or_comm, eq_comm]
  next hm => simp [hm]

/-- Giving a key back frees its slot, if it has one. -/
theorem mem_release {key : Key} : n ∈ s.release key ↔ n ∈ s ∧ key.slot? ≠ some n := by
  rw [release]
  split
  next m hm => rw [mem_erase, hm, ne_eq, ne_eq, Option.some.injEq, and_comm, eq_comm]
  next hm => simp [hm]

/-- Reserving keys takes their slots into use and no others. -/
theorem mem_reserveAll {keys : List Key} : n ∈ s.reserveAll keys ↔ n ∈ s ∨ n ∈ slotsOf keys := by
  rw [reserveAll]
  induction keys generalizing s with
  | nil => simp
  | cons key keys ih =>
    rw [List.foldl_cons, ih, mem_reserve, or_assoc, mem_slotsOf_cons]

/-- Giving keys back frees their slots and no others. -/
theorem mem_releaseAll {keys : List Key} : n ∈ s.releaseAll keys ↔ n ∈ s ∧ n ∉ slotsOf keys := by
  rw [releaseAll]
  induction keys generalizing s with
  | nil => simp
  | cons key keys ih =>
    rw [List.foldl_cons, ih, mem_release, and_assoc, mem_slotsOf_cons, not_or]

/-- The slots in use at the start are those of the keys of the forest. -/
theorem mem_ofForest {forest : Forest} :
    n ∈ ofForest forest ↔ n ∈ slotsOf (Forest.keys forest) := by
  rw [ofForest, mem_reserveAll]
  exact or_iff_right List.not_mem_nil

/-! ## Room -/

/-- Some number is still free. -/
def HasRoom (s : Slots) : Prop := s.size < 2 ^ 64

instance (s : Slots) : Decidable s.HasRoom := inferInstanceAs (Decidable (_ < _))

/-- A list gets no shorter when a number is inserted. -/
theorem length_le_length_insertSorted (n : UInt64) (ms : List UInt64) :
    ms.length ≤ (insertSorted n ms).length := by
  induction ms with
  | nil => exact Nat.zero_le _
  | cons m ms ih =>
    rw [insertSorted]
    split
    · exact Nat.le_succ _
    split
    · exact Nat.le_refl _
    · exact Nat.succ_le_succ ih

/-- There was room before if there is after taking a number into use. -/
theorem HasRoom.of_insert (h : (s.insert n).HasRoom) : s.HasRoom :=
  Nat.lt_of_le_of_lt (length_le_length_insertSorted n s.used) h

/-! ## The first gap -/

/-- The search for a gap goes upwards. -/
theorem le_firstGap (candidate : Nat) (ns : List UInt64) : candidate ≤ firstGap candidate ns := by
  induction ns generalizing candidate with
  | nil => exact Nat.le_refl _
  | cons n ns ih =>
    rw [firstGap]
    split
    · exact Nat.le_of_succ_le (ih (candidate + 1))
    · exact Nat.le_refl _

/-- The search for a gap passes at most as many numbers as there are in use. -/
theorem firstGap_le (candidate : Nat) (ns : List UInt64) :
    firstGap candidate ns ≤ candidate + ns.length := by
  induction ns generalizing candidate with
  | nil => exact Nat.le_refl _
  | cons n ns ih =>
    rw [firstGap]
    split
    · have := ih (candidate + 1)
      rw [List.length_cons]
      omega
    · exact Nat.le_add_right _ _

/-- The first gap is not in the list. -/
theorem toNat_ne_firstGap {candidate : Nat} {ns : List UInt64} (hascending : ns.Pairwise (· < ·))
    (hfrom : ∀ n ∈ ns, candidate ≤ n.toNat) : ∀ n ∈ ns, n.toNat ≠ firstGap candidate ns := by
  induction ns generalizing candidate with
  | nil => exact fun n hn => absurd hn List.not_mem_nil
  | cons m ms ih =>
    have ⟨hm, hms⟩ := List.pairwise_cons.1 hascending
    have hlt : ∀ n ∈ ms, m.toNat < n.toNat := fun n hn => UInt64.lt_iff_toNat_lt.1 (hm n hn)
    rw [firstGap]
    split
    next heq =>
      refine List.forall_mem_cons.2 ⟨?_, ih hms fun n hn => ?_⟩
      · have := le_firstGap (candidate + 1) ms
        omega
      · have := hlt n hn
        omega
    next hne =>
      refine List.forall_mem_cons.2 ⟨hne, fun n hn => ?_⟩
      have := hlt n hn
      have := hfrom m List.mem_cons_self
      omega

/-- Everything from the candidate up to the first gap is in the list. -/
theorem exists_mem_of_lt_firstGap {candidate k : Nat} {ns : List UInt64} (hle : candidate ≤ k)
    (hlt : k < firstGap candidate ns) : ∃ n ∈ ns, n.toNat = k := by
  induction ns generalizing candidate with
  | nil => exact absurd hlt (Nat.not_lt.2 hle)
  | cons m ms ih =>
    rw [firstGap] at hlt
    split at hlt
    next heq =>
      by_cases hk : k = candidate
      · exact ⟨m, List.mem_cons_self, by omega⟩
      · obtain ⟨n, hn, hnk⟩ := ih (by omega) hlt
        exact ⟨n, List.mem_cons_of_mem _ hn, hnk⟩
    next => exact absurd hlt (Nat.not_lt.2 hle)

/-- While there is room, the number handed out is the least that is free. -/
theorem exists_allocate_eq (h : s.HasRoom) :
    ∃ n, s.allocate = (.number n, s.insert n) ∧ n ∉ s ∧ ∀ m < n, m ∈ s := by
  -- the gap is at most the number of slots in use, so that it fits a word
  have hlt : firstGap 0 s.used < 2 ^ 64 := by
    have := firstGap_le 0 s.used
    rw [HasRoom, size] at h
    omega
  have hgap : (UInt64.ofNat (firstGap 0 s.used)).toNat = firstGap 0 s.used :=
    UInt64.toNat_ofNat_of_lt' hlt
  refine ⟨UInt64.ofNat (firstGap 0 s.used), rfl, fun hmem => ?_, fun m hm => ?_⟩
  · exact toNat_ne_firstGap s.ascending (fun n _ => Nat.zero_le _) _ hmem hgap
  · rw [UInt64.lt_iff_toNat_lt, hgap] at hm
    obtain ⟨n, hn, hnm⟩ := exists_mem_of_lt_firstGap (Nat.zero_le _) hm
    rw [← UInt64.toNat_inj.1 hnm]
    exact hn

/-! ## New keys for a subtree -/

/-- Hands out so many keys, one after the other. -/
def allocateMany (s : Slots) : Nat → List Key × Slots
  | 0 => ([], s)
  | count + 1 =>
    let (key, s) := s.allocate
    let (keys, s) := allocateMany s count
    (key :: keys, s)

/-- One more key is handed out first, and the others with the slots that this leaves. -/
theorem allocateMany_succ (s : Slots) (count : Nat) :
    s.allocateMany (count + 1) =
      (s.allocate.1 :: (s.allocate.2.allocateMany count).1,
        (s.allocate.2.allocateMany count).2) := rfl

/-- Handing keys out in two turns is the same as handing them all out at once. -/
theorem allocateMany_add (s : Slots) (first second : Nat) :
    s.allocateMany (first + second) =
      ((s.allocateMany first).1 ++ ((s.allocateMany first).2.allocateMany second).1,
        ((s.allocateMany first).2.allocateMany second).2) := by
  induction first generalizing s with
  | zero => rw [Nat.zero_add]; rfl
  | succ first ih => rw [Nat.succ_add, allocateMany_succ, ih, allocateMany_succ]; rfl

/-- The step of rekeying: a node gets the next key. -/
def renew (s : Slots) (node : Node) : Node × Slots :=
  ({ node with key := s.allocate.1 }, s.allocate.2)

/-- A subtree is rekeyed by renewing the key of every node met. -/
theorem rekey_eq_visit (s : Slots) (node : Node) :
    s.rekey node = node.visit (fun _ => true) renew s := rfl

/-- Visiting a forest to rekey it hands out a key for each node, in the order of the keys. -/
theorem keys_visit_renew (s : Slots) (forest : Forest) :
    (Forest.keys (Forest.visit (fun _ => true) renew s forest).1,
      (Forest.visit (fun _ => true) renew s forest).2) = s.allocateMany (Forest.count forest) := by
  induction forest using Forest.induction generalizing s with
  | nil => rfl
  | cons node forest ihc ihf =>
    -- the node gets the first key, its children the next ones and the other nodes those after them
    have hc := ihc s.allocate.2
    have hf := ihf (s.allocate.2.allocateMany (Forest.count node.children)).2
    rw [Prod.ext_iff] at hc hf
    rw [Forest.count, Node.count_eq, Nat.add_comm 1, Nat.succ_add, allocateMany_succ,
      allocateMany_add, ← hc.1, ← hf.1, ← hf.2, ← hc.2]
    simp only [Forest.visit, Node.visit_eq, if_true, renew, Forest.keys_cons]

/-- Rekeying a subtree hands out a key for each of its nodes, in the order of the keys. -/
theorem keys_rekey (s : Slots) (node : Node) :
    ((s.rekey node).1.keys, (s.rekey node).2) = s.allocateMany node.count := by
  have h := keys_visit_renew s [node]
  rw [Forest.count, Forest.count, Nat.add_zero] at h
  rw [← h, rekey_eq_visit]
  simp only [Forest.visit, Forest.keys, List.append_nil]

/-- There was room before keys were handed out if there is afterwards. -/
theorem HasRoom.of_allocateMany {count : Nat} (h : (s.allocateMany count).2.HasRoom) :
    s.HasRoom := by
  induction count generalizing s with
  | zero => exact h
  | succ count ih => exact (ih h).of_insert

/-- Keys handed out from slots are numbers that were free, all different, and exactly these are in
use as well afterwards. -/
def HandsOut (s t : Slots) (keys : List Key) : Prop :=
  ∃ ns : List UInt64, keys = ns.map .number ∧ ns.Nodup ∧ (∀ n ∈ ns, n ∉ s) ∧
    ∀ n, n ∈ t ↔ n ∈ s ∨ n ∈ ns

/-- Keys handed out one after the other are so. -/
theorem handsOut_allocateMany {count : Nat} (h : (s.allocateMany count).2.HasRoom) :
    s.HandsOut (s.allocateMany count).2 (s.allocateMany count).1 := by
  induction count generalizing s with
  | zero => exact ⟨[], rfl, List.nodup_nil, by simp, by simp [allocateMany]⟩
  | succ count ih =>
    rw [allocateMany_succ] at h ⊢
    obtain ⟨m, hm, hfree, -⟩ := exists_allocate_eq h.of_allocateMany.of_insert
    obtain ⟨ns, hkeys, hnodup, hnew, huse⟩ := ih h
    rw [hm] at hkeys hnew huse ⊢
    -- the first number is in use when the others are handed out, so it is none of them
    refine ⟨m :: ns, ?_, List.nodup_cons.2 ⟨fun hmem => ?_, hnodup⟩,
      List.forall_mem_cons.2 ⟨hfree, fun n hn hs => ?_⟩, fun n => ?_⟩
    · rw [hkeys, List.map_cons]
    · exact hnew m hmem (mem_insert.2 (.inl rfl))
    · exact hnew n hn (mem_insert.2 (.inr hs))
    · rw [huse, mem_insert, List.mem_cons, or_comm (a := n = m), or_assoc]

/-- So is a single key. -/
theorem handsOut_allocate (h : s.allocate.2.HasRoom) : s.HandsOut s.allocate.2 [s.allocate.1] := by
  obtain ⟨n, halloc, hfree, -⟩ := exists_allocate_eq h.of_insert
  rw [halloc]
  refine ⟨[n], rfl, List.nodup_singleton n, List.forall_mem_singleton.2 hfree, fun m => ?_⟩
  rw [mem_insert, List.mem_singleton, or_comm]

/-- So are the keys of a copy. -/
theorem handsOut_rekey {node : Node} (h : (s.rekey node).2.HasRoom) :
    s.HandsOut (s.rekey node).2 (s.rekey node).1.keys := by
  obtain ⟨hkeys, hslots⟩ := Prod.mk.inj (keys_rekey s node)
  rw [hslots] at h ⊢
  rw [hkeys]
  exact handsOut_allocateMany h

end Slots

end PageTree
