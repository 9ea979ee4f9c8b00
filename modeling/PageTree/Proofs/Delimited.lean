/-! # Delimited lists

A list is told apart from what comes after it by the first member of a kind:
**`append_cons_inj_of_first`**. So a text that does not contain the character it ends in is read
back from whatever it stands in front of: **`Text.append_cons_inj`**. -/

namespace PageTree

/-- Two lists up to the first member with a property are equal if they are so with what comes after
it. -/
theorem append_cons_inj_of_first {α : Type} {p : α → Prop} {front front' back back' : List α}
    {a a' : α} (hfront : ∀ b ∈ front, ¬p b) (hfront' : ∀ b ∈ front', ¬p b) (ha : p a) (ha' : p a')
    (h : front ++ a :: back = front' ++ a' :: back') :
    front = front' ∧ a = a' ∧ back = back' := by
  induction front generalizing front' with
  | nil =>
    cases front' with
    | nil => exact ⟨rfl, List.cons.inj h⟩
    | cons b front' => exact absurd ((List.cons.inj h).1 ▸ ha) (hfront' b List.mem_cons_self)
  | cons b front ih =>
    rw [List.forall_mem_cons] at hfront
    cases front' with
    | nil => exact absurd ((List.cons.inj h).1 ▸ ha') hfront.1
    | cons b' front' =>
      obtain ⟨rfl, hrest⟩ := List.cons.inj h
      obtain ⟨rfl, hback⟩ := ih hfront.2 (List.forall_mem_cons.1 hfront').2 hrest
      exact ⟨rfl, hback⟩

/-- Two texts up to the first occurrence of a character are equal if they are so with what comes
after it. -/
theorem Text.append_cons_inj {stop : Char} {cs ds rest rest' : List Char} (hcs : stop ∉ cs)
    (hds : stop ∉ ds) (h : cs ++ stop :: rest = ds ++ stop :: rest') : cs = ds ∧ rest = rest' := by
  have hother : ∀ {text : List Char}, stop ∉ text → ∀ c ∈ text, ¬c = stop :=
    fun htext c hc heq => htext (heq ▸ hc)
  obtain ⟨hfront, -, hback⟩ := append_cons_inj_of_first (hother hcs) (hother hds) rfl rfl h
  exact ⟨hfront, hback⟩

end PageTree
