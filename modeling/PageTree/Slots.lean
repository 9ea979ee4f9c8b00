import PageTree.Node.Visit

/-! # Slots

The supply of numbers for the keys of new nodes. **`Slots`** is the set of the numbers in use;
**`Slots.allocate`** hands out the least one that is free, so a number given back is used again
before a larger one. Keys without a slot are not tracked, since no number handed out can clash with
them. **`Slots.rekey`** gives a copied subtree keys of its own. -/

namespace PageTree

/-- The numbers in use, in ascending order. -/
structure Slots where
  /-- The numbers. -/
  used : List UInt64
  /-- Each is less than those after it. -/
  ascending : used.Pairwise (· < ·)
  deriving DecidableEq, Repr

namespace Slots

/-- No number is in use. -/
def empty : Slots := ⟨[], List.Pairwise.nil⟩

instance : Inhabited Slots := ⟨empty⟩

/-- How many numbers are in use. -/
def size (s : Slots) : Nat := s.used.length

instance : Membership UInt64 Slots := ⟨fun s n => n ∈ s.used⟩

instance (n : UInt64) (s : Slots) : Decidable (n ∈ s) := inferInstanceAs (Decidable (n ∈ s.used))

/-- A number is in use exactly when the list has it. -/
theorem mem_iff {n : UInt64} {s : Slots} : n ∈ s ↔ n ∈ s.used := Iff.rfl

/-! ## Adding and dropping a number -/

/-- Puts a number into an ascending list, unless it is there. -/
def insertSorted (n : UInt64) : List UInt64 → List UInt64
  | [] => [n]
  | m :: ms => if n < m then n :: m :: ms else if n = m then m :: ms else m :: insertSorted n ms

/-- Inserting adds one number and drops none. -/
theorem mem_insertSorted {n m : UInt64} {ms : List UInt64} :
    m ∈ insertSorted n ms ↔ m = n ∨ m ∈ ms := by
  induction ms with
  | nil => simp [insertSorted]
  | cons k ms ih =>
    rw [insertSorted]
    split
    · simp
    split
    next h => subst h; simp
    next => simp only [List.mem_cons, ih]; exact or_left_comm

/-- An ascending list stays ascending when a number is inserted. -/
theorem pairwise_insertSorted {n : UInt64} {ms : List UInt64} (h : ms.Pairwise (· < ·)) :
    (insertSorted n ms).Pairwise (· < ·) := by
  induction ms with
  | nil => simp [insertSorted]
  | cons k ms ih =>
    have ⟨hk, hms⟩ := List.pairwise_cons.1 h
    rw [insertSorted]
    split
    next hn =>
      refine List.pairwise_cons.2 ⟨fun m hm => ?_, h⟩
      rcases List.mem_cons.1 hm with rfl | hm
      · exact hn
      · exact UInt64.lt_trans hn (hk m hm)
    split
    next => exact h
    next hlt hne =>
      refine List.pairwise_cons.2 ⟨fun m hm => ?_, ih hms⟩
      rcases mem_insertSorted.1 hm with rfl | hm
      · exact UInt64.lt_of_le_of_ne (UInt64.not_lt.1 hlt) (Ne.symm hne)
      · exact hk m hm

/-- Takes a number into use. -/
def insert (n : UInt64) (s : Slots) : Slots :=
  ⟨insertSorted n s.used, pairwise_insertSorted s.ascending⟩

/-- Gives a number back. -/
def erase (n : UInt64) (s : Slots) : Slots := ⟨s.used.filter (· != n), s.ascending.filter _⟩

/-- Adding a number puts it in use and no other. -/
@[simp] theorem mem_insert {n m : UInt64} {s : Slots} : m ∈ s.insert n ↔ m = n ∨ m ∈ s :=
  mem_insertSorted

/-- Dropping a number leaves the others in use. -/
@[simp] theorem mem_erase {n m : UInt64} {s : Slots} : m ∈ s.erase n ↔ m ≠ n ∧ m ∈ s := by
  simp [mem_iff, erase, and_comm]

/-! ## Keys -/

/-- Whether the slot of a key is in use. -/
def holds (s : Slots) (key : Key) : Bool := key.slot?.any fun n => decide (n ∈ s)

/-- Takes the slot of a key into use, if it has one. -/
def reserve (s : Slots) (key : Key) : Slots :=
  match key.slot? with
  | some n => s.insert n
  | none => s

/-- Gives the slot of a key back, if it has one. -/
def release (s : Slots) (key : Key) : Slots :=
  match key.slot? with
  | some n => s.erase n
  | none => s

/-- Takes the slots of keys into use. -/
def reserveAll (s : Slots) (keys : List Key) : Slots := keys.foldl reserve s

/-- Gives the slots of keys back. -/
def releaseAll (s : Slots) (keys : List Key) : Slots := keys.foldl release s

/-- The slots of the keys of a forest. -/
def ofForest (forest : Forest) : Slots := empty.reserveAll (Forest.keys forest)

/-! ## Handing out keys -/

/-- The least natural from a candidate on that is not in an ascending list. -/
def firstGap (candidate : Nat) : List UInt64 → Nat
  | [] => candidate
  | n :: ns => if n.toNat = candidate then firstGap (candidate + 1) ns else candidate

/-- Hands out the least free number as a key. When all words are in use the numbers start again
at zero. -/
def allocate (s : Slots) : Key × Slots :=
  let n := UInt64.ofNat (firstGap 0 s.used)
  (.number n, s.insert n)

/-- Gives every node of a subtree a new key, a node before its children. -/
def rekey (s : Slots) (node : Node) : Node × Slots :=
  node.visit (fun _ => true)
    (fun s node =>
      let (key, s) := s.allocate
      ({ node with key := key }, s))
    s

end Slots

end PageTree
