import PageTree.Proofs.Json.Literal

/-! # Tokens found in a text

The scanner finds the tokens that characters spell (**`Token.Spells`**): marks, text literals and
words, with spaces between them, where a word ends at a character that is no part of a word. A
**`Token.Spelling`** may stand in front of anything that does not go on with a word, and what is
**`Token.Delimited`** may stand behind a word too, so a text is put together from the spellings of
its parts. Main statement: `Token.Spells.scan?_eq`. -/

namespace PageTree

/-- A character is written as an escape, whose digits are plain characters, or as itself if it is
one. -/
theorem Quoted.encodeChar_eq (c : Char) :
    (∃ letter digits, encodeChar c = '\\' :: letter :: digits ∧
      ∀ d ∈ digits, d ≠ '"' ∧ d ≠ '\\') ∨
    encodeChar c = [c] ∧ c ≠ '"' ∧ c ≠ '\\' := by
  have hletter : ∀ letter : Char, ∃ letter' digits, ['\\', letter] = '\\' :: letter' :: digits ∧
      ∀ d ∈ digits, d ≠ '"' ∧ d ≠ '\\' := fun letter => ⟨letter, [], rfl, nofun⟩
  rw [encodeChar]
  by_cases hquote : c = '"'
  · rw [if_pos hquote]
    exact .inl (hletter _)
  by_cases hsolidus : c = '\\'
  · rw [if_neg hquote, if_pos hsolidus]
    exact .inl (hletter _)
  -- the other escapes have a letter of their own, but for the control characters, which have digits
  rw [if_neg hquote, if_neg hsolidus]
  split
  · exact .inl (hletter _)
  split
  · exact .inl (hletter _)
  split
  · exact .inl (hletter _)
  split
  · exact .inl (hletter _)
  split
  · exact .inl (hletter _)
  split
  · have hhex : ∀ n < 16, hexDigit n ≠ '"' ∧ hexDigit n ≠ '\\' := by decide
    refine .inl ⟨'u', _, rfl, ?_⟩
    simp only [List.forall_mem_cons]
    exact ⟨by decide, by decide, hhex _ (by omega), hhex _ (by omega), nofun⟩
  · exact .inr ⟨rfl, hquote, hsolidus⟩

namespace Token

/-! ## Characters that spell tokens -/

/-- The characters do not go on with a word. -/
def EndsWord (cs : List Char) : Prop := ∀ c ∈ cs.head?, isWordChar c = false

/-- The characters spell the tokens. -/
inductive Spells : List Token → List Char → Prop where
  /-- Nothing spells nothing. -/
  | nil : Spells [] []
  /-- A space may stand in front. -/
  | space {c : Char} {tokens : List Token} {cs : List Char} (hc : isSpace c = true)
      (hrest : Spells tokens cs) : Spells tokens (c :: cs)
  /-- A mark spells its token. -/
  | mark {c : Char} {token : Token} {tokens : List Token} {cs : List Char}
      (hc : punctuation? c = some token) (hrest : Spells tokens cs) :
      Spells (token :: tokens) (c :: cs)
  /-- A text literal spells its text. -/
  | text (s : String) {tokens : List Token} {cs : List Char} (hrest : Spells tokens cs) :
      Spells (.scalar (.text s) :: tokens) (Quoted.literal s.toList ++ cs)
  /-- A word spells its token, unless more of it follows. -/
  | word {token : Token} {word : List Char} {tokens : List Token} {cs : List Char}
      (hword : IsWord token word) (hends : EndsWord cs) (hrest : Spells tokens cs) :
      Spells (token :: tokens) (word ++ cs)

namespace Scanner

variable {c : Char} {scanner next : Scanner} (rest : List Char)

/-- The tokens that one character completes stand in front of those that come later. -/
theorem run?_cons {tokens : List Token} (h : scanner.step? c = some (tokens, next)) :
    scanner.run? [] (c :: rest) = (next.run? [] rest).map (tokens ++ ·) := by
  rw [run?, h]
  show next.run? (tokens.reverse ++ []) rest = _
  rw [run?_eq_map, List.append_nil, List.reverse_reverse]

/-- A character that completes no token only changes what the scanner is in the middle of. -/
theorem run?_cons_nil (h : scanner.step? c = some ([], next)) :
    scanner.run? [] (c :: rest) = next.run? [] rest := by
  rw [run?_cons rest h]
  simp

/-- A space between tokens is passed over. -/
theorem step?_of_isSpace (h : isSpace c = true) : between.step? c = some ([], .between) := by
  rw [step?, start, if_pos h]

/-- A mark between tokens is a token. -/
theorem step?_of_mark {token : Token} (h : punctuation? c = some token) :
    between.step? c = some ([token], .between) := by
  have hspace : ¬isSpace c = true := by
    rw [punctuation?.eq_def] at h
    split at h
    all_goals first | contradiction | exact by decide
  rw [step?, start, if_neg hspace, h]

/-! ### Words -/

/-- A word starts with its first character. -/
theorem step?_of_isWordChar (h : isWordChar c = true) :
    between.step? c = some ([], .word [c]) := by
  simp only [isWordChar, Bool.and_eq_true, Bool.not_eq_true', Option.isNone_iff_eq_none,
    bne_iff_ne] at h
  obtain ⟨⟨hspace, hmark⟩, hquote⟩ := h
  rw [step?, start, if_neg (Bool.eq_false_iff.1 hspace), hmark, if_neg (mt beq_iff_eq.1 hquote)]

/-- A word goes on as long as its characters do. -/
theorem run?_word {word : List Char} (h : ∀ c ∈ word, isWordChar c = true) (chars : List Char) :
    (Scanner.word chars).run? [] (word ++ rest) =
      (Scanner.word (word.reverse ++ chars)).run? [] rest := by
  induction word generalizing chars with
  | nil => rfl
  | cons c word ih =>
    obtain ⟨hc, hword⟩ := List.forall_mem_cons.1 h
    have hstep : (Scanner.word chars).step? c = some ([], .word (c :: chars)) := by
      rw [step?, if_pos hc]
    rw [List.cons_append, run?_cons_nil _ hstep, ih hword, List.reverse_cons, List.append_assoc,
      List.singleton_append]

/-- Where it ends, a word is read as its token. -/
theorem run?_word_of_endsWord {token : Token} {chars : List Char}
    (hword : ofWord? chars.reverse = some token) (hends : EndsWord rest) :
    (Scanner.word chars).run? [] rest = (scan? rest).map (token :: ·) := by
  cases rest with
  | nil =>
    rw [run?, finish?, hword]
    rfl
  | cons c rest =>
    have hc : isWordChar c = false := hends c rfl
    have hstep : (Scanner.word chars).step? c = some (token :: (start c).1, (start c).2) := by
      rw [step?, if_neg (by rw [hc]; exact Bool.false_ne_true), hword]
      rfl
    rw [run?_cons _ hstep, scan?, run?_cons _ (by rw [step?] : between.step? c = some (start c)),
      Option.map_map]
    rfl

/-! ### Text literals -/

/-- Characters between quotes that are neither quotes nor reverse solidi stand for themselves. -/
theorem run?_quoted_plain {plain : List Char} (h : ∀ c ∈ plain, c ≠ '"' ∧ c ≠ '\\')
    (chars : List Char) :
    (Scanner.quoted chars).run? [] (plain ++ rest) =
      (Scanner.quoted (plain.reverse ++ chars)).run? [] rest := by
  induction plain generalizing chars with
  | nil => rfl
  | cons c plain ih =>
    obtain ⟨⟨hquote, hsolidus⟩, hplain⟩ := List.forall_mem_cons.1 h
    have hstep : (Scanner.quoted chars).step? c = some ([], .quoted (c :: chars)) := by
      rw [step?, if_neg (mt beq_iff_eq.1 hquote), if_neg (mt beq_iff_eq.1 hsolidus)]
    rw [List.cons_append, run?_cons_nil _ hstep, ih hplain, List.reverse_cons, List.append_assoc,
      List.singleton_append]

/-- After a reverse solidus any character is taken. -/
theorem run?_quoted_escape (c : Char) (chars : List Char) :
    (Scanner.quoted chars).run? [] ('\\' :: c :: rest) =
      (Scanner.quoted (c :: '\\' :: chars)).run? [] rest := by
  have hsolidus : (Scanner.quoted chars).step? '\\' = some ([], .escape ('\\' :: chars)) := rfl
  have hescaped : (Scanner.escape ('\\' :: chars)).step? c =
      some ([], .quoted (c :: '\\' :: chars)) := rfl
  rw [run?_cons_nil _ hsolidus, run?_cons_nil _ hescaped]

/-- What is written for a character does not end a text literal. -/
theorem run?_encodeChar (c : Char) (chars : List Char) :
    (Scanner.quoted chars).run? [] (Quoted.encodeChar c ++ rest) =
      (Scanner.quoted ((Quoted.encodeChar c).reverse ++ chars)).run? [] rest := by
  rcases Quoted.encodeChar_eq c with ⟨letter, digits, hc, hdigits⟩ | ⟨hc, hplain⟩
  · rw [hc, List.cons_append, List.cons_append, run?_quoted_escape, run?_quoted_plain _ hdigits]
    simp
  · rw [hc, run?_quoted_plain _ (by simpa using hplain)]

/-- What is written for a text does not end a text literal. -/
theorem run?_encode (text chars : List Char) :
    (Scanner.quoted chars).run? [] (Quoted.encode text ++ rest) =
      (Scanner.quoted ((Quoted.encode text).reverse ++ chars)).run? [] rest := by
  induction text generalizing chars with
  | nil => rfl
  | cons c text ih =>
    rw [Quoted.encode_cons, List.append_assoc, run?_encodeChar, ih, List.reverse_append,
      List.append_assoc]

/-- A text literal is read as its text. -/
theorem scan?_literal (s : String) :
    scan? (Quoted.literal s.toList ++ rest) = (scan? rest).map (.scalar (.text s) :: ·) := by
  have hquoted : ofQuoted? ((Quoted.encode s.toList).reverse ++ []).reverse =
      some (.scalar (.text s)) := by
    rw [List.append_nil, List.reverse_reverse, ofQuoted?, Quoted.decode_encode]
    simp
  have hopen : between.step? '"' = some ([], .quoted []) := rfl
  have hclose : (Scanner.quoted ((Quoted.encode s.toList).reverse ++ [])).step? '"' =
      some ([.scalar (.text s)], .between) := by
    rw [step?, if_pos (beq_self_eq_true _), hquoted]
    rfl
  rw [Quoted.literal, List.append_assoc, List.cons_append, scan?, run?_cons_nil _ hopen,
    run?_encode, List.singleton_append, run?_cons _ hclose]
  rfl

end Scanner

/-- The tokens that characters spell are found in them. -/
theorem Spells.scan?_eq {tokens : List Token} {cs : List Char} (h : Spells tokens cs) :
    scan? cs = some tokens := by
  induction h with
  | nil => rfl
  | @space c tokens cs hc _ ih =>
    rw [Token.scan?, Scanner.run?_cons_nil cs (Scanner.step?_of_isSpace hc)]
    exact ih
  | @mark c token tokens cs hc _ ih =>
    rw [Token.scan?, Scanner.run?_cons cs (Scanner.step?_of_mark hc)]
    exact congrArg (Option.map _) ih
  | text s _ ih =>
    rw [Scanner.scan?_literal, ih]
    rfl
  | @word token word tokens cs hword hends _ ih =>
    -- the characters of a word are gathered from the end, so it is put together in reverse
    cases word with
    | nil => exact absurd rfl hword.ne_nil
    | cons c word =>
      obtain ⟨hc, hchars⟩ := List.forall_mem_cons.1 hword.isWordChar
      have hread : ofWord? (word.reverse ++ [c]).reverse = some token := by
        rw [List.reverse_append, List.reverse_reverse]
        exact hword.ofWord?
      rw [List.cons_append, Token.scan?,
        Scanner.run?_cons_nil _ (Scanner.step?_of_isWordChar hc),
        Scanner.run?_word cs hchars, Scanner.run?_word_of_endsWord cs hread hends, ih]
      rfl

end Token

/-! ## Spellings in a text -/

namespace Token

/-- The characters spell the tokens in front of anything that does not go on with a word. -/
def Spelling (tokens : List Token) (cs : List Char) : Prop :=
  ∀ (more : List Token) (rest : List Char), EndsWord rest → Spells more rest →
    Spells (tokens ++ more) (cs ++ rest)

/-- The characters spell the tokens and do not go on with a word themselves. -/
structure Delimited (tokens : List Token) (cs : List Char) : Prop where
  /-- They spell the tokens. -/
  spelling : Spelling tokens cs
  /-- A word in front of them ends there. -/
  endsWord : ∀ rest : List Char, EndsWord rest → EndsWord (cs ++ rest)

variable {c : Char} {token : Token} {tokens more : List Token} {cs ds gap : List Char}

/-- No characters spell no tokens. -/
theorem Delimited.nil : Delimited [] [] := ⟨fun _ _ _ hrest => hrest, fun _ hends => hends⟩

/-- Tokens that end by themselves are spelled behind others. -/
theorem Spelling.append (h : Spelling tokens cs) (hmore : Delimited more ds) :
    Spelling (tokens ++ more) (cs ++ ds) := by
  intro after rest hends hrest
  rw [List.append_assoc, List.append_assoc]
  exact h _ _ (hmore.endsWord rest hends) (hmore.spelling after rest hends hrest)

/-- Characters that end by themselves do so one behind the other. -/
theorem Delimited.append (h : Delimited tokens cs) (hmore : Delimited more ds) :
    Delimited (tokens ++ more) (cs ++ ds) := by
  refine ⟨h.spelling.append hmore, fun rest hends => ?_⟩
  rw [List.append_assoc]
  exact h.endsWord _ (hmore.endsWord rest hends)

/-- A mark ends a word in front of it. -/
theorem Spelling.mark (hc : punctuation? c = some token) (h : Spelling tokens cs) :
    Delimited (token :: tokens) (c :: cs) := by
  have hmark : isWordChar c = false := by
    rw [isWordChar, hc, Option.isNone_some, Bool.and_false, Bool.false_and]
  refine ⟨fun more rest hends hrest => .mark hc (h more rest hends hrest), fun _ _ d hd => ?_⟩
  rw [← Option.some.inj hd]
  exact hmark

/-- Spaces may stand in front. -/
theorem Spelling.spaces (hgap : ∀ c ∈ gap, isSpace c = true) (h : Spelling tokens cs) :
    Spelling tokens (gap ++ cs) := by
  intro more rest hends hrest
  induction gap with
  | nil => exact h more rest hends hrest
  | cons c gap ih =>
    obtain ⟨hc, hgap⟩ := List.forall_mem_cons.1 hgap
    exact .space hc (ih hgap)

/-- Spaces may stand in front of what is spelled. -/
theorem Delimited.spaces (hgap : ∀ c ∈ gap, isSpace c = true) (h : Delimited tokens cs) :
    Delimited tokens (gap ++ cs) := by
  refine ⟨h.spelling.spaces hgap, fun rest hends => ?_⟩
  cases gap with
  | nil => exact h.endsWord rest hends
  | cons c gap =>
    intro d hd
    rw [← Option.some.inj hd, isWordChar, hgap c List.mem_cons_self]
    rfl

/-- Delimited spellings may follow one another. -/
theorem Delimited.flatMap {α : Type} {list : List α} {parts : α → List Token}
    {write : α → List Char} (h : ∀ a ∈ list, Delimited (parts a) (write a)) :
    Delimited (list.flatMap parts) (list.flatMap write) := by
  induction list with
  | nil => exact .nil
  | cons a list ih =>
    obtain ⟨ha, hlist⟩ := List.forall_mem_cons.1 h
    exact ha.append (ih hlist)

/-- A value without parts is spelled by its characters. -/
theorem spelling_scalarChars {s : Scalar} (h : s.IsRestored) :
    Spelling [.scalar s] (scalarChars s) := by
  intro more rest hends hrest
  cases s with
  | text text => exact .text text hrest
  | _ => exact .word (isWord_scalarChars h nofun) hends hrest

end Token

end PageTree
