import PageTree.Markup.Escape

/-! # Reading escaped text back

**`Markup.unescapeChars`** puts the characters back that entities stand for, in one pass. Of the
characters that mean something in markup, an escaped text (**`Markup.IsEscaped`**) has only the
ampersands that entities begin with. What is written for a text is escaped, and is read back as the
text (**`Markup.unescapeChars_escapeChars`**); an escaped text is what is written for the text that
it is read as (**`Markup.escapeChars_unescapeChars`**). Main statement: `Markup.escaping_exact`. -/

namespace PageTree.Markup

variable {quotes : Bool} {cs ds : List Char}

/-! ## Reading back -/

/-- Replaces entities by the characters that they stand for, in one pass from left to right. The
quote has an entity only inside an attribute. -/
def unescapeChars (quotes : Bool) : List Char → List Char
  | [] => []
  | '&' :: 'a' :: 'm' :: 'p' :: ';' :: cs => '&' :: unescapeChars quotes cs
  | '&' :: 'l' :: 't' :: ';' :: cs => '<' :: unescapeChars quotes cs
  | '&' :: 'g' :: 't' :: ';' :: cs => '>' :: unescapeChars quotes cs
  | '&' :: 'q' :: 'u' :: 'o' :: 't' :: ';' :: cs =>
    (if quotes then ['"'] else "&quot;".toList) ++ unescapeChars quotes cs
  | c :: cs => c :: unescapeChars quotes cs

/-- A text read back. -/
def unescape (quotes : Bool) (s : String) : String := String.ofList (unescapeChars quotes s.toList)

/-- A character that is no ampersand stands for itself. -/
theorem unescapeChars_plain {c : Char} (h : c ≠ '&') (cs : List Char) :
    unescapeChars quotes (c :: cs) = c :: unescapeChars quotes cs := by
  rw [unescapeChars.eq_def]
  split
  next heq => contradiction
  next heq => exact absurd (List.cons.inj heq).1 h
  next heq => exact absurd (List.cons.inj heq).1 h
  next heq => exact absurd (List.cons.inj heq).1 h
  next heq => exact absurd (List.cons.inj heq).1 h
  next heq =>
    obtain ⟨rfl, rfl⟩ := List.cons.inj heq
    rfl

/-- A character is its own text or has an entity. -/
theorem substitute_cases (quotes : Bool) (c : Char) :
    (c = '&' ∧ substitute quotes c = "&amp;".toList) ∨
    (c = '<' ∧ substitute quotes c = "&lt;".toList) ∨
    (c = '>' ∧ substitute quotes c = "&gt;".toList) ∨
    (c = '"' ∧ quotes = true ∧ substitute quotes c = "&quot;".toList) ∨
    (c ≠ '&' ∧ c ≠ '<' ∧ c ≠ '>' ∧ (c = '"' → quotes = false) ∧ substitute quotes c = [c]) := by
  by_cases hamp : c = '&'
  · subst hamp; cases quotes <;> decide
  by_cases hlt : c = '<'
  · subst hlt; cases quotes <;> decide
  by_cases hgt : c = '>'
  · subst hgt; cases quotes <;> decide
  by_cases hquote : c = '"'
  · subst hquote; cases quotes <;> decide
  · cases quotes <;>
      simp [substitute, entities, List.lookup_cons, beq_false_of_ne, hamp, hlt, hgt, hquote]

/-- Reading takes what stands for one character off the front. -/
theorem unescapeChars_substitute_append (quotes : Bool) (c : Char) (rest : List Char) :
    unescapeChars quotes (substitute quotes c ++ rest) = c :: unescapeChars quotes rest := by
  rcases substitute_cases quotes c with
    ⟨rfl, h⟩ | ⟨rfl, h⟩ | ⟨rfl, h⟩ | ⟨rfl, rfl, h⟩ | ⟨hamp, -, -, -, h⟩
  · rw [h]; rfl
  · rw [h]; rfl
  · rw [h]; rfl
  · rw [h]; rfl
  · rw [h, List.singleton_append, unescapeChars_plain hamp]

/-- **A text is read back from what is written for it.** -/
theorem unescapeChars_escapeChars (quotes : Bool) (cs : List Char) :
    unescapeChars quotes (escapeChars quotes cs) = cs := by
  rw [escapeChars_eq_substituteChars, substituteChars]
  induction cs with
  | nil => rfl
  | cons c cs ih => rw [List.flatMap_cons, unescapeChars_substitute_append, ih]

/-- No two texts are written alike. -/
theorem escapeChars_inj (h : escapeChars quotes cs = escapeChars quotes ds) : cs = ds := by
  rw [← unescapeChars_escapeChars quotes cs, h, unescapeChars_escapeChars]

/-! ## What is written -/

/-- The first character is escaped by itself. -/
theorem escapeChars_cons (quotes : Bool) (c : Char) (cs : List Char) :
    escapeChars quotes (c :: cs) = substitute quotes c ++ escapeChars quotes cs := by
  rw [← List.singleton_append, escapeChars_append, escapeChars_singleton]

/-- A character of what is written for a text stands for itself or belongs to an entity. -/
theorem mem_escapeChars {c : Char} (h : c ∈ escapeChars quotes cs) :
    (c ∈ cs ∧ c ≠ '&' ∧ c ≠ '<' ∧ c ≠ '>' ∧ (c = '"' → quotes = false)) ∨
      c ∈ "&amp;".toList ∨ c ∈ "&lt;".toList ∨ c ∈ "&gt;".toList ∨ c ∈ "&quot;".toList := by
  rw [escapeChars_eq_substituteChars, substituteChars, List.mem_flatMap] at h
  obtain ⟨d, hd, hmem⟩ := h
  rcases substitute_cases quotes d with
    ⟨-, h⟩ | ⟨-, h⟩ | ⟨-, h⟩ | ⟨-, -, h⟩ | ⟨hamp, hlt, hgt, hquote, h⟩
  · exact .inr (.inl (h ▸ hmem))
  · exact .inr (.inr (.inl (h ▸ hmem)))
  · exact .inr (.inr (.inr (.inl (h ▸ hmem))))
  · exact .inr (.inr (.inr (.inr (h ▸ hmem))))
  · rw [h, List.mem_singleton] at hmem
    subst hmem
    exact .inl ⟨hd, hamp, hlt, hgt, hquote⟩

/-- A character other than the ampersand that has an entity is not left, and no entity has one of
these characters in it. -/
theorem notMem_escapeChars {c : Char} (hc : c = '<' ∨ c = '>' ∨ c = '"' ∧ quotes = true)
    (cs : List Char) : c ∉ escapeChars quotes cs := by
  intro h
  rcases mem_escapeChars h with ⟨-, -, hlt, hgt, hquote⟩ | hentity
  · rcases hc with rfl | rfl | ⟨rfl, rfl⟩
    · exact hlt rfl
    · exact hgt rfl
    · exact Bool.noConfusion (hquote rfl)
  · revert hentity
    rcases hc with rfl | rfl | ⟨rfl, -⟩ <;> decide

/-- What is written in an attribute cannot end it. -/
theorem quote_notMem_escapeChars (cs : List Char) : '"' ∉ escapeChars true cs :=
  notMem_escapeChars (.inr (.inr ⟨rfl, rfl⟩)) cs

/-- What is written for a text cannot open a tag. -/
theorem lt_notMem_escapeChars (quotes : Bool) (cs : List Char) : '<' ∉ escapeChars quotes cs :=
  notMem_escapeChars (.inl rfl) cs

/-- Only a text with line breaks is written with line breaks. -/
theorem newline_mem_of_mem_escapeChars (h : '\n' ∈ escapeChars quotes cs) : '\n' ∈ cs := by
  rcases mem_escapeChars h with ⟨hmem, -⟩ | hentity
  · exact hmem
  · refine absurd hentity ?_
    decide

/-! ## Escaped texts -/

/-- An escaped text: what means something in markup has been replaced by entities. -/
structure IsEscaped (quotes : Bool) (cs : List Char) : Prop where
  /-- No tag opens in it. -/
  lt : '<' ∉ cs
  /-- No tag closes in it. -/
  gt : '>' ∉ cs
  /-- The attribute that it is the value of does not end in it. -/
  quote : quotes = true → '"' ∉ cs
  /-- Every ampersand begins an entity. -/
  ampersand : ∀ rest, '&' :: rest <:+ cs → ∃ entity ∈ entities quotes, entity.2 <+: '&' :: rest

/-- What is at the end of an escaped text is escaped. -/
theorem IsEscaped.of_suffix (h : IsEscaped quotes cs) (hend : ds <:+ cs) : IsEscaped quotes ds where
  lt hmem := h.lt (hend.subset hmem)
  gt hmem := h.gt (hend.subset hmem)
  quote hquotes hmem := h.quote hquotes (hend.subset hmem)
  ampersand rest hrest := h.ampersand rest (hrest.trans hend)

/-- What begins with a character begins after a text that does not have it. -/
theorem suffix_of_suffix_append {c : Char} {rest : List Char} (hfront : c ∉ cs)
    (h : c :: rest <:+ cs ++ ds) : c :: rest <:+ ds := by
  induction cs with
  | nil => exact h
  | cons d cs ih =>
    obtain ⟨hne, hfront⟩ := List.ne_and_not_mem_of_not_mem_cons hfront
    rw [List.cons_append, List.suffix_cons_iff] at h
    rcases h with heq | hrest
    · exact absurd (List.cons.inj heq).1 hne
    · exact ih hfront hrest

/-- The only ampersand in what stands for a character is the first character of an entity. -/
theorem ampersand_substitute (quotes : Bool) (c : Char) :
    '&' ∉ substitute quotes c ∨
      ∃ name, (c, '&' :: name) ∈ entities quotes ∧ substitute quotes c = '&' :: name ∧
        '&' ∉ name := by
  rcases substitute_cases quotes c with
    ⟨rfl, h⟩ | ⟨rfl, h⟩ | ⟨rfl, h⟩ | ⟨rfl, rfl, h⟩ | ⟨hamp, -, -, -, h⟩
  · exact .inr ⟨_, by cases quotes <;> decide, h, by decide⟩
  · exact .inr ⟨_, by cases quotes <;> decide, h, by decide⟩
  · exact .inr ⟨_, by cases quotes <;> decide, h, by decide⟩
  · exact .inr ⟨_, by decide, h, by decide⟩
  · rw [h, List.mem_singleton]
    exact .inl (Ne.symm hamp)

/-- Every ampersand in what is written for a text begins an entity. -/
theorem exists_entity_of_suffix_escapeChars {rest : List Char}
    (h : '&' :: rest <:+ escapeChars quotes cs) :
    ∃ entity ∈ entities quotes, entity.2 <+: '&' :: rest := by
  induction cs with
  | nil =>
    rw [escapeChars_nil, List.suffix_nil] at h
    contradiction
  | cons c cs ih =>
    rw [escapeChars_cons] at h
    -- the ampersand begins the entity of the first character, or it belongs to the rest of the text
    rcases ampersand_substitute quotes c with hplain | ⟨name, hentity, hsubstitute, hname⟩
    · exact ih (suffix_of_suffix_append hplain h)
    · rw [hsubstitute, List.cons_append, List.suffix_cons_iff] at h
      rcases h with heq | hrest
      · exact ⟨_, hentity, heq ▸ List.prefix_append _ _⟩
      · exact ih (suffix_of_suffix_append hname hrest)

/-- What is written for a text is escaped. -/
theorem isEscaped_escapeChars (quotes : Bool) (cs : List Char) :
    IsEscaped quotes (escapeChars quotes cs) where
  lt := lt_notMem_escapeChars quotes cs
  gt := notMem_escapeChars (.inr (.inl rfl)) cs
  quote hquotes := notMem_escapeChars (.inr (.inr ⟨rfl, hquotes⟩)) cs
  ampersand _ := exists_entity_of_suffix_escapeChars

/-- An ampersand that an escaped text starts with begins an entity, and the rest of the entity comes
after it. -/
theorem IsEscaped.entity_cases (h : IsEscaped quotes ('&' :: cs)) :
    ∃ rest, cs = "amp;".toList ++ rest ∨ cs = "lt;".toList ++ rest ∨ cs = "gt;".toList ++ rest ∨
      quotes = true ∧ cs = "quot;".toList ++ rest := by
  obtain ⟨⟨c, text⟩, hentity, rest, htext⟩ := h.ampersand cs List.suffix_rfl
  have hrest : ∀ name, text = '&' :: name → cs = name ++ rest := by
    rintro name rfl
    exact (List.cons.inj htext).2.symm
  rw [entities, List.mem_append] at hentity
  rcases hentity with hentity | hentity
  · simp only [List.mem_cons, Prod.mk.injEq, List.not_mem_nil, or_false] at hentity
    rcases hentity with ⟨-, htext⟩ | ⟨-, htext⟩ | ⟨-, htext⟩
    · exact ⟨rest, .inl (hrest _ htext)⟩
    · exact ⟨rest, .inr (.inl (hrest _ htext))⟩
    · exact ⟨rest, .inr (.inr (.inl (hrest _ htext)))⟩
  · rw [List.mem_ite_nil_right, List.mem_singleton, Prod.mk.injEq] at hentity
    obtain ⟨hquotes, -, htext⟩ := hentity
    exact ⟨rest, .inr (.inr (.inr ⟨hquotes, hrest _ htext⟩))⟩

/-- A character of an escaped text is the ampersand or is written as it is. -/
theorem IsEscaped.substitute_eq {c : Char} (h : IsEscaped quotes (c :: cs)) (hamp : c ≠ '&') :
    substitute quotes c = [c] := by
  rcases substitute_cases quotes c with
    ⟨rfl, -⟩ | ⟨rfl, -⟩ | ⟨rfl, -⟩ | ⟨rfl, hquotes, -⟩ | ⟨-, -, -, -, hself⟩
  · contradiction
  · exact absurd List.mem_cons_self h.lt
  · exact absurd List.mem_cons_self h.gt
  · exact absurd List.mem_cons_self (h.quote hquotes)
  · exact hself

/-- **An escaped text is what is written for the text that it is read as.** -/
theorem escapeChars_unescapeChars (h : IsEscaped quotes cs) :
    escapeChars quotes (unescapeChars quotes cs) = cs := by
  fun_induction unescapeChars quotes cs with
  | case1 => exact escapeChars_nil quotes
  | case2 cs ih =>
    rw [escapeChars_cons, ih (h.of_suffix ⟨"&amp;".toList, rfl⟩)]
    cases quotes <;> rfl
  | case3 cs ih =>
    rw [escapeChars_cons, ih (h.of_suffix ⟨"&lt;".toList, rfl⟩)]
    cases quotes <;> rfl
  | case4 cs ih =>
    rw [escapeChars_cons, ih (h.of_suffix ⟨"&gt;".toList, rfl⟩)]
    cases quotes <;> rfl
  | case5 cs ih =>
    -- between tags there is no entity of the quote
    have hquotes : quotes = true := by
      obtain ⟨rest, hrest | hrest | hrest | ⟨hquotes, -⟩⟩ := h.entity_cases
      · exact absurd (List.cons.inj hrest).1 (by decide)
      · exact absurd (List.cons.inj hrest).1 (by decide)
      · exact absurd (List.cons.inj hrest).1 (by decide)
      · exact hquotes
    rw [if_pos hquotes, List.singleton_append, escapeChars_cons,
      ih (h.of_suffix ⟨"&quot;".toList, rfl⟩), hquotes]
    rfl
  | case6 c cs hnotAmp hnotLt hnotGt hnotQuot ih =>
    -- every entity has been taken by one of the cases above
    have hplain : c ≠ '&' := by
      rintro rfl
      obtain ⟨rest, hrest | hrest | hrest | ⟨-, hrest⟩⟩ := h.entity_cases
      · exact hnotAmp rest rfl hrest
      · exact hnotLt rest rfl hrest
      · exact hnotGt rest rfl hrest
      · exact hnotQuot rest rfl hrest
    rw [escapeChars_cons, h.substitute_eq hplain, ih (h.of_suffix (List.suffix_cons c cs)),
      List.singleton_append]

/-! ## Escaping of texts -/

/-- What it means for texts to be escaped exactly and so that they can be read back. -/
structure EscapesExactly (quotes : Bool) (escape : String → String) : Prop where
  /-- A special character is written as its entity and every other one as it is, as in one pass. -/
  onePass : ∀ s, (escape s).toList = substituteChars quotes s.toList
  /-- Whatever the text is, entities and special characters in it included, what is written for it
  is escaped. -/
  isEscaped : ∀ s, IsEscaped quotes (escape s).toList
  /-- Reading gives the text back. -/
  unescape_escape : ∀ s, unescape quotes (escape s) = s
  /-- Every escaped text is written for some text, the one that it is read as. -/
  escape_unescape : ∀ t : String, IsEscaped quotes t.toList → escape (unescape quotes t) = t
  /-- No two texts are written alike. -/
  injective : Function.Injective escape

/-- **Escaping is exact and reversible.** To replace one kind of special character after another in
the whole text is to replace each of them once, between tags and in attributes. Nothing is left that
means something in markup, every ampersand begins an entity, and one pass puts the characters back.
So no two texts are written alike, and the escaped texts are exactly those that are written. -/
theorem escaping_exact : EscapesExactly false escapeText ∧ EscapesExactly true escapeAttribute := by
  -- both are known only by the characters that they write
  have hexact : ∀ (quotes : Bool) (escape : String → String),
      (∀ s, (escape s).toList = escapeChars quotes s.toList) → EscapesExactly quotes escape := by
    intro quotes escape hescape
    have hread : ∀ s, unescape quotes (escape s) = s := fun s => by
      rw [unescape, hescape, unescapeChars_escapeChars, String.ofList_toList]
    refine ⟨fun s => ?_, fun s => ?_, hread, fun t ht => ?_, ?_⟩
    · rw [hescape, escapeChars_eq_substituteChars]
    · rw [hescape]
      exact isEscaped_escapeChars quotes s.toList
    · rw [← String.toList_inj, hescape, unescape, String.toList_ofList,
        escapeChars_unescapeChars ht]
    · exact Function.LeftInverse.injective hread
  exact ⟨hexact false escapeText fun s => String.toList_ofList,
    hexact true escapeAttribute fun s => String.toList_ofList⟩

/-- An entity in a text is escaped like anything else. -/
example : escapeText "a < \"&lt;\"" = "a &lt; \"&amp;lt;\"" ∧
    unescape false "a &lt; \"&amp;lt;\"" = "a < \"&lt;\"" := by decide

end PageTree.Markup
