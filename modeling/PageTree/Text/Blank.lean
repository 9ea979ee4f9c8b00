/-! # Blank text

The characters that count as white space at the ends of a value, and trimming by them.
**`Text.isBlank`** is the Unicode property White_Space; **`Text.trim`** drops blank characters from
both ends of a text and **`Text.isBlankText`** says that nothing is left. -/

namespace PageTree.Text

/-- Whether a character has the Unicode property White_Space: the ASCII blanks and line ends, the
next-line control, the no-break spaces, and the space, line and paragraph separators. -/
def isBlank (c : Char) : Bool :=
  let n := c.toNat
  (0x09 ≤ n && n ≤ 0x0D) || n == 0x20 || n == 0x85 || n == 0xA0 || n == 0x1680 ||
    (0x2000 ≤ n && n ≤ 0x200A) || n == 0x2028 || n == 0x2029 || n == 0x202F || n == 0x205F ||
    n == 0x3000

/-- The graphic ASCII characters are not blank. -/
theorem isBlank_eq_false_of_graphic {c : Char} (h : 0x21 ≤ c.toNat ∧ c.toNat ≤ 0x7E) :
    isBlank c = false := by
  simp only [isBlank, Bool.or_eq_false_iff, Bool.and_eq_false_iff, decide_eq_false_iff_not,
    beq_eq_false_iff_ne]
  omega

/-- A list of characters without the blank ones at its front and at its end. -/
def trimList (cs : List Char) : List Char :=
  ((cs.dropWhile isBlank).reverse.dropWhile isBlank).reverse

/-- A text without the blank characters at its front and at its end. -/
def trim (s : String) : String := String.ofList (trimList s.toList)

/-- A text is blank when all of its characters are, as they are in the empty text. -/
def isBlankText (s : String) : Bool := s.toList.all isBlank

/-- Nothing is left when blanks are dropped from the front exactly when all characters are blank. -/
theorem dropWhile_isBlank_eq_nil_iff {cs : List Char} :
    cs.dropWhile isBlank = [] ↔ ∀ c ∈ cs, isBlank c = true := by
  induction cs with
  | nil => simp
  | cons c cs ih => by_cases h : isBlank c <;> simp [h, ih]

/-- Trimming leaves nothing exactly when every character is blank. -/
theorem trimList_eq_nil_iff {cs : List Char} : trimList cs = [] ↔ ∀ c ∈ cs, isBlank c = true := by
  rw [trimList, List.reverse_eq_nil_iff, dropWhile_isBlank_eq_nil_iff]
  constructor
  · intro h c hc
    rw [← List.takeWhile_append_dropWhile (p := isBlank) (l := cs), List.mem_append] at hc
    rcases hc with hc | hc
    · exact List.all_eq_true.1 List.all_takeWhile c hc
    · exact h c (List.mem_reverse.2 hc)
  · intro h c hc
    exact h c (List.dropWhile_sublist isBlank |>.subset (List.mem_reverse.1 hc))

end PageTree.Text
