import PageTree.Key
import PageTree.Proofs.Delimited
import PageTree.Text.Blank

/-! # Class names and slots

When two keys have the same generated class. A character that does not stand for itself is spelled
between low lines, and neither a plain character nor a hexadecimal digit is a low line, so a class
is read back character by character: **`Key.classOfName_inj`**. The only names that share a class
with a number are those spelled like it: **`Key.slot?_eq_some_iff`**. So two keys have one class
exactly when they are the same or take the same slot: **`Key.className_eq_iff`**. A class is always
fit to be the name of a class selector: **`Key.isSelectorName_className`**. Main statement:
`Key.className_determines_slot`. -/

namespace PageTree

namespace Digits

/-- Below sixteen, different digits are different characters. -/
theorem digitChar_inj : ∀ d < 16, ∀ e < 16, Nat.digitChar d = Nat.digitChar e → d = e := by
  decide

/-- A hexadecimal text has digits and letters only. -/
theorem isAlphanum_of_mem_toDigits {n : Nat} {c : Char} (h : c ∈ Nat.toDigits 16 n) :
    c.isAlphanum = true := by
  have hdigit : ∀ d < 16, (Nat.digitChar d).isAlphanum = true := by decide
  induction n using Nat.strongRecOn with
  | ind n ih =>
    rw [Nat.toDigits_eq_if (by decide)] at h
    split at h
    next hn =>
      rw [List.mem_singleton.1 h]
      exact hdigit n hn
    next hn =>
      rcases List.mem_append.1 h with hfront | hlast
      · exact ih (n / 16) (by omega) hfront
      · rw [List.mem_singleton.1 hlast]
        exact hdigit (n % 16) (by omega)

/-- A hexadecimal text has no low line in it. -/
theorem lowLine_notMem_toDigits (n : Nat) : '_' ∉ Nat.toDigits 16 n := fun h =>
  absurd (isAlphanum_of_mem_toDigits h) (by decide)

/-- Different naturals have different hexadecimal texts. -/
theorem toDigits_inj {m n : Nat} (h : Nat.toDigits 16 m = Nat.toDigits 16 n) : m = n := by
  induction m using Nat.strongRecOn generalizing n with
  | ind m ih =>
    rw [Nat.toDigits_eq_if (n := m) (by decide), Nat.toDigits_eq_if (n := n) (by decide)] at h
    split at h
    next hm =>
      split at h
      next hn => exact digitChar_inj m hm n hn (List.singleton_inj.1 h)
      next =>
        -- one digit against a text that has more than its last one
        have hne : Nat.toDigits 16 (n / 16) ≠ [] := Nat.toDigits_ne_nil
        have hlen := congrArg List.length h
        have := List.length_pos_iff.2 hne
        simp only [List.length_append, List.length_singleton] at hlen
        omega
    next hm =>
      split at h
      next =>
        have hne : Nat.toDigits 16 (m / 16) ≠ [] := Nat.toDigits_ne_nil
        have hlen := congrArg List.length h
        have := List.length_pos_iff.2 hne
        simp only [List.length_append, List.length_singleton] at hlen
        omega
      next =>
        obtain ⟨hfront, hlast⟩ := List.append_inj' h rfl
        have hd := ih (m / 16) (by omega) hfront
        have hdigit := List.singleton_inj.1 hlast
        have hr := digitChar_inj (m % 16) (by omega) (n % 16) (by omega) hdigit
        omega

/-- Different naturals have different decimal texts. -/
theorem write_inj {m n : Nat} (h : write m = write n) : m = n := by
  rw [← value_write m, h, value_write]

end Digits

namespace Key

/-! ## Reading a class back -/

/-- A plain character is not a low line. -/
theorem ne_lowLine_of_isPlain {front : Bool} {c : Char} (h : isPlain front c = true) : c ≠ '_' := by
  rintro rfl
  revert h
  cases front <;> decide

/-- What stands for a character tells the character, whatever comes after it. -/
theorem classChars_append_inj {front : Bool} {c d : Char} {rest rest' : List Char}
    (h : classChars front c ++ rest = classChars front d ++ rest') : c = d ∧ rest = rest' := by
  rw [classChars, classChars] at h
  by_cases hc : isPlain front c = true
  · by_cases hd : isPlain front d = true
    · rw [if_pos hc, if_pos hd] at h
      exact List.cons.inj h
    · rw [if_pos hc, if_neg hd] at h
      exact absurd (List.cons.inj h).1 (ne_lowLine_of_isPlain hc)
  · by_cases hd : isPlain front d = true
    · rw [if_neg hc, if_pos hd] at h
      exact absurd (List.cons.inj h).1.symm (ne_lowLine_of_isPlain hd)
    · rw [if_neg hc, if_neg hd, List.append_assoc, List.append_assoc] at h
      -- the code point ends at the first low line after the one in front
      have htail := (List.cons.inj h).2
      obtain ⟨hhex, hrest⟩ := Text.append_cons_inj (Digits.lowLine_notMem_toDigits _)
        (Digits.lowLine_notMem_toDigits _) htail
      exact ⟨Char.toNat_inj.1 (Digits.toDigits_inj hhex), hrest⟩

/-- No character is dropped from a class. -/
theorem classChars_ne_nil (front : Bool) (c : Char) : classChars front c ≠ [] := by
  rw [classChars]
  split <;> simp

/-- The characters after the first are read back one after the other. -/
theorem flatMap_classChars_inj {cs ds : List Char}
    (h : cs.flatMap (classChars false) = ds.flatMap (classChars false)) : cs = ds := by
  induction cs generalizing ds with
  | nil =>
    cases ds with
    | nil => rfl
    | cons d ds =>
      exact absurd (List.append_eq_nil_iff.1 h.symm).1 (classChars_ne_nil false d)
  | cons c cs ih =>
    cases ds with
    | nil => exact absurd (List.append_eq_nil_iff.1 h).1 (classChars_ne_nil false c)
    | cons d ds =>
      rw [List.flatMap_cons, List.flatMap_cons] at h
      obtain ⟨rfl, hrest⟩ := classChars_append_inj h
      rw [ih hrest]

/-- The class of a name that is not empty is not that of the empty name: a low line in front is
followed by a code point. -/
theorem classOfName_cons_ne (c : Char) (cs : List Char) : classOfName (c :: cs) ≠ ['_'] := by
  intro h
  rw [classOfName, classChars] at h
  split at h
  next hc => exact ne_lowLine_of_isPlain hc (List.cons.inj h).1
  next => simp at h

/-- Different names have different classes. -/
theorem classOfName_inj {cs ds : List Char} (h : classOfName cs = classOfName ds) : cs = ds := by
  cases cs with
  | nil =>
    cases ds with
    | nil => rfl
    | cons d ds => exact absurd h.symm (classOfName_cons_ne d ds)
  | cons c cs =>
    cases ds with
    | nil => exact absurd h (classOfName_cons_ne c cs)
    | cons d ds =>
      obtain ⟨rfl, hrest⟩ := classChars_append_inj h
      rw [flatMap_classChars_inj hrest]

/-! ## The characters of a class -/

/-- Whether a character can stand in a generated class. -/
def isClassChar (c : Char) : Bool := c.isAlphanum || c == '-' || c == '_'

/-- A character that stands for itself can stand in a class. -/
theorem isClassChar_of_isPlain {front : Bool} {c : Char} (h : isPlain front c = true) :
    isClassChar c = true := by
  simp only [isPlain, Bool.or_eq_true, Bool.and_eq_true, beq_iff_eq] at h
  rcases h with halpha | ⟨-, hdigit | rfl⟩
  · simp [isClassChar, Char.isAlphanum, halpha]
  · simp [isClassChar, Char.isAlphanum, hdigit]
  · rfl

/-- What a character is written as can stand in a class. -/
theorem isClassChar_of_mem_classChars {front : Bool} {c d : Char} (h : d ∈ classChars front c) :
    isClassChar d = true := by
  rw [classChars] at h
  split at h
  next hplain =>
    rw [List.mem_singleton.1 h]
    exact isClassChar_of_isPlain hplain
  next =>
    simp only [List.cons_append, List.mem_cons, List.mem_append, List.not_mem_nil, or_false] at h
    rcases h with rfl | hhex | rfl
    · rfl
    · simp [isClassChar, Digits.isAlphanum_of_mem_toDigits hhex]
    · rfl

/-- A generated class has letters, digits, hyphens and low lines only. -/
theorem isClassChar_of_mem_className {key : Key} {c : Char} (h : c ∈ key.className.toList) :
    isClassChar c = true := by
  cases key with
  | number n =>
    rw [className, String.toList_ofList] at h
    rcases List.mem_cons.1 h with rfl | hdigit
    · rfl
    · simp [isClassChar, Char.isAlphanum, Digits.isDigit_of_mem_write hdigit]
  | name s =>
    rw [className, String.toList_ofList] at h
    cases hs : s.toList with
    | nil =>
      rw [hs] at h
      rw [List.mem_singleton.1 h]
      rfl
    | cons d ds =>
      rw [hs, classOfName, List.mem_append, List.mem_flatMap] at h
      rcases h with hfront | ⟨e, -, hrest⟩
      · exact isClassChar_of_mem_classChars hfront
      · exact isClassChar_of_mem_classChars hrest

/-- No class name is empty. -/
theorem className_toList_ne_nil (key : Key) : key.className.toList ≠ [] := by
  cases key with
  | number n =>
    rw [className, String.toList_ofList]
    exact List.cons_ne_nil _ _
  | name s =>
    rw [className, String.toList_ofList]
    cases s.toList with
    | nil => exact List.cons_ne_nil _ _
    | cons c cs => exact List.append_ne_nil_of_left_ne_nil (classChars_ne_nil true c) _

/-- Whether a text is a name that a class selector can have: a letter or a low line, and after it
letters, digits, hyphens and low lines. -/
def isSelectorName : List Char → Bool
  | [] => false
  | c :: cs => (c.isAlpha || c == '_') && cs.all isClassChar

/-- What stands for the first character of a name starts with a letter or a low line: a digit or a
hyphen does not stand for itself there. -/
theorem exists_classChars_eq_cons (c : Char) :
    ∃ d ds, classChars true c = d :: ds ∧ (d.isAlpha || d == '_') = true := by
  rw [classChars]
  split
  next hplain =>
    have halpha : c.isAlpha = true := by simpa [isPlain] using hplain
    exact ⟨c, [], rfl, by rw [halpha, Bool.true_or]⟩
  next => exact ⟨'_', Nat.toDigits 16 c.toNat ++ ['_'], rfl, rfl⟩

/-- A generated class can be the name of a class selector. -/
theorem isSelectorName_className (key : Key) : isSelectorName key.className.toList = true := by
  -- what comes after the first character may be any character of a class
  have hrest : ∀ (d : Char) (ds : List Char), key.className.toList = d :: ds →
      (d.isAlpha || d == '_') = true → isSelectorName key.className.toList = true := by
    intro d ds hclass hfront
    rw [hclass, isSelectorName, hfront, Bool.true_and, List.all_eq_true]
    intro c hc
    exact isClassChar_of_mem_className (hclass ▸ List.mem_cons_of_mem d hc)
  cases key with
  | number n => exact hrest 'n' (Digits.write n.toNat) (String.toList_ofList ..) rfl
  | name s =>
    have hclass : (name s).className.toList = classOfName s.toList := String.toList_ofList ..
    cases hs : s.toList with
    | nil =>
      rw [hs] at hclass
      exact hrest '_' [] hclass rfl
    | cons c cs =>
      obtain ⟨d, ds, hfirst, hfront⟩ := exists_classChars_eq_cons c
      rw [hs, classOfName, hfirst, List.cons_append] at hclass
      exact hrest d _ hclass hfront

/-- No character of a generated class is blank. -/
theorem isBlank_eq_false_of_isClassChar {c : Char} (h : isClassChar c = true) :
    Text.isBlank c = false := by
  refine Text.isBlank_eq_false_of_graphic ?_
  have hlower : c.isLower = (decide ('a'.val ≤ c.val) && decide (c.val ≤ 'z'.val)) := rfl
  have hupper : c.isUpper = decide ('A'.val ≤ c.val ∧ c.val ≤ 'Z'.val) := rfl
  have halpha : c.isAlpha = (c.isUpper || c.isLower) := rfl
  simp only [isClassChar, Char.isAlphanum, halpha, hupper, hlower, Char.isDigit,
    Bool.or_eq_true, Bool.and_eq_true, decide_eq_true_eq, beq_iff_eq, ge_iff_le,
    UInt32.le_iff_toNat_le] at h
  rcases h with (((⟨hleast, hgreatest⟩ | ⟨hleast, hgreatest⟩) | ⟨hleast, hgreatest⟩) | rfl) | rfl
  · exact ⟨Nat.le_trans (by decide) hleast, Nat.le_trans hgreatest (by decide)⟩
  · exact ⟨Nat.le_trans (by decide) hleast, Nat.le_trans hgreatest (by decide)⟩
  · exact ⟨Nat.le_trans (by decide) hleast, Nat.le_trans hgreatest (by decide)⟩
  · decide
  · decide

/-! ## Numbers and the names spelled like them -/

/-- The class of a name spelled like the class of a number is that spelling. -/
theorem classOfName_cons_write (n : Nat) :
    classOfName ('n' :: Digits.write n) = 'n' :: Digits.write n := by
  have hplain : ∀ cs : List Char, (∀ c ∈ cs, c.isDigit = true) →
      cs.flatMap (classChars false) = cs := by
    intro cs h
    induction cs with
    | nil => rfl
    | cons c cs ih =>
      have hc : isPlain false c = true := by simp [isPlain, h c (by simp)]
      rw [List.flatMap_cons, classChars, if_pos hc, ih fun d hd => h d (List.mem_cons_of_mem _ hd)]
      rfl
  rw [classOfName, hplain _ fun c hc => Digits.isDigit_of_mem_write hc]
  rfl

/-- A name has the class of a number exactly when it is spelled like it. -/
theorem className_name_eq_number_iff (s : String) (n : UInt64) :
    (name s).className = (number n).className ↔ s.toList = 'n' :: Digits.write n.toNat := by
  rw [className, className, String.ofList_inj]
  constructor
  · intro h
    rw [← classOfName_cons_write] at h
    exact classOfName_inj h
  · intro h
    rw [h, classOfName_cons_write]

/-- Different numbers have different classes. -/
theorem className_number_inj {m n : UInt64} (h : (number m).className = (number n).className) :
    m = n := by
  rw [className, className, String.ofList_inj] at h
  exact UInt64.toNat_inj.1 (Digits.write_inj (List.cons.inj h).2)

/-- A key takes the slot of a number exactly when it has the class of that number. -/
theorem slot?_eq_some_iff {key : Key} {n : UInt64} :
    key.slot? = some n ↔ key.className = (number n).className := by
  cases key with
  | number m =>
    rw [slot?_number, Option.some.injEq]
    exact ⟨fun h => by rw [h], className_number_inj⟩
  | name s =>
    rw [className_name_eq_number_iff, slot?]
    split
    next digits hs => rw [canonicalWord?_eq_some_iff, hs, List.cons.injEq, and_iff_right rfl]
    next hs =>
      constructor
      · intro h
        contradiction
      · intro h
        exact absurd h (hs _)

/-- Two keys have one class exactly when they are the same or take the same slot. -/
theorem className_eq_iff {a b : Key} :
    a.className = b.className ↔ a = b ∨ ∃ n, a.slot? = some n ∧ b.slot? = some n := by
  constructor
  · intro h
    cases a with
    | number n => exact .inr ⟨n, rfl, slot?_eq_some_iff.2 h.symm⟩
    | name s =>
      cases b with
      | number n => exact .inr ⟨n, slot?_eq_some_iff.2 h, rfl⟩
      | name t =>
        rw [className, className, String.ofList_inj] at h
        exact .inl (congrArg name (String.toList_inj.1 (classOfName_inj h)))
  · rintro (rfl | ⟨n, ha, hb⟩)
    · rfl
    · rw [slot?_eq_some_iff.1 ha, slot?_eq_some_iff.1 hb]

/-- Keys that take the same slot have one class. -/
theorem className_eq_of_slot?_eq {a b : Key} {n : UInt64} (ha : a.slot? = some n)
    (hb : b.slot? = some n) : a.className = b.className :=
  className_eq_iff.2 (.inr ⟨n, ha, hb⟩)

/-- **What a class tells of a key.** Two keys have one class exactly when they are the same or take
the same slot. A key takes a slot exactly when it has the class of the number, which for a name
means that it is spelled like it, without a sign or superfluous zeros in front. And every class can
be the name of a class selector. -/
theorem className_determines_slot (a b : Key) :
    (a.className = b.className ↔ a = b ∨ ∃ n, a.slot? = some n ∧ b.slot? = some n) ∧
    (∀ n : UInt64, a.slot? = some n ↔ a.className = (number n).className) ∧
    (∀ (s : String) (n : UInt64), (name s).slot? = some n ↔ s = "n" ++ Digits.text n.toNat) ∧
    isSelectorName a.className.toList = true := by
  refine ⟨className_eq_iff, fun n => slot?_eq_some_iff, fun s n => ?_, isSelectorName_className a⟩
  rw [slot?_eq_some_iff, className_name_eq_number_iff, ← String.toList_inj]
  simp [Digits.text]

end Key

end PageTree
