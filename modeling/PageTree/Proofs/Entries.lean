/-! # Lists of entries

Values under keys, where a new entry takes the place of the one with its key: what is found then is
the new value under this key, and under all others what was there (**`Entries.lookup_put_self`**,
**`Entries.lookup_put_of_ne`**). -/

namespace PageTree.Entries

variable {α β : Type} [BEq α] [LawfulBEq α] {entries : List (α × β)} {key other : α}

/-- What is left out under one key is not missed under another. -/
theorem lookup_filter_ne (h : other ≠ key) :
    (entries.filter fun entry => entry.1 != key).lookup other = entries.lookup other := by
  induction entries with
  | nil => rfl
  | cons entry entries ih =>
    by_cases heq : entry.1 = key
    · have hother : (other == entry.1) = false := by simpa [heq] using h
      rw [List.filter_cons_of_neg (by simp [heq]), ih, List.lookup_cons, hother]
    · rw [List.filter_cons_of_pos (by simpa using heq), List.lookup_cons, List.lookup_cons, ih]

/-- Under the key of a new entry the new value is found. -/
theorem lookup_put_self (entries : List (α × β)) (key : α) (value : β) :
    ((key, value) :: entries.filter fun entry => entry.1 != key).lookup key = some value := by
  rw [List.lookup_cons, beq_self_eq_true]

/-- Under any other key than that of a new entry nothing changes. -/
theorem lookup_put_of_ne (value : β) (h : other ≠ key) :
    ((key, value) :: entries.filter fun entry => entry.1 != key).lookup other =
      entries.lookup other := by
  rw [List.lookup_cons, beq_false_of_ne h]
  exact lookup_filter_ne h

end PageTree.Entries
