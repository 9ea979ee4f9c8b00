import PageTree.Json.Parser
import PageTree.Json.Printer
import PageTree.Proofs.Json.Scan

/-! # Data values read back from text

A value whose numbers are restored is read back from its text, in either layout. The tokens of a
value are spelled by its compact text and by its text over several lines
(**`Json.spelling_compact`**, **`Json.spelling_indented`**), and the reader builds the value from
its tokens, whatever value it is (**`Json.ofTokens?_tokens`**). Main statement:
`Json.parse?_compact_indented`. -/

namespace PageTree

namespace Json

/-! ## Parts of values -/

/-- A property of values holds of all of them if it holds of those without parts and passes from
the parts of an array or an object to the whole. -/
theorem induction {motive : Json → Prop} (scalar : ∀ s, motive (.scalar s))
    (array : ∀ items : List Json, (∀ item ∈ items, motive item) → motive (.array items))
    (object : ∀ entries : List (String × Json), (∀ entry ∈ entries, motive entry.2) →
      motive (.object entries)) (json : Json) : motive json :=
  Json.rec (motive_1 := motive) (motive_2 := fun items => ∀ item ∈ items, motive item)
    (motive_3 := fun entries => ∀ entry ∈ entries, motive entry.2)
    (motive_4 := fun entry => motive entry.2) scalar array object (by simp)
    (fun _ _ head tail => List.forall_mem_cons.2 ⟨head, tail⟩) (by simp)
    (fun _ _ head tail => List.forall_mem_cons.2 ⟨head, tail⟩) (fun _ _ value => value) json

/-- Something holds of everything without parts in a value. -/
inductive Every (q : Scalar → Prop) : Json → Prop where
  /-- It holds of a value without parts. -/
  | scalar {s : Scalar} (hs : q s) : Every q (.scalar s)
  /-- It holds in all items of an array. -/
  | array {items : List Json} (hitems : ∀ item ∈ items, Every q item) : Every q (.array items)
  /-- It holds in all entries of an object. -/
  | object {entries : List (String × Json)} (hentries : ∀ entry ∈ entries, Every q entry.2) :
    Every q (.object entries)

/-- All numbers in a value are restored. -/
abbrev IsRestored (json : Json) : Prop := json.Every Scalar.IsRestored

/-! ## Tokens of arrays and objects -/

/-- The tokens of an entry. -/
def tokensOfEntry (entry : String × Json) : List Token :=
  .scalar (.text entry.1) :: .colon :: entry.2.tokens

/-- Each further item comes with a comma in front. -/
theorem moreItemTokens_eq (items : List Json) :
    moreItemTokens items = items.flatMap fun item => .comma :: item.tokens := by
  induction items with
  | nil => rfl
  | cons item items ih => rw [moreItemTokens, ih, List.flatMap_cons]

/-- Each further entry comes with a comma in front. -/
theorem moreEntryTokens_eq (entries : List (String × Json)) :
    moreEntryTokens entries = entries.flatMap fun entry => .comma :: tokensOfEntry entry := by
  induction entries with
  | nil => rfl
  | cons entry entries ih => rw [moreEntryTokens, ih, List.flatMap_cons]; rfl

/-- The tokens of an array with items are those of the items between brackets, with commas between
them. -/
theorem tokens_array_cons (item : Json) (items : List Json) :
    (Json.array (item :: items)).tokens =
      .openArray :: (item.tokens ++ (items.flatMap (fun item => .comma :: item.tokens) ++
        [.closeArray])) := by
  rw [tokens, itemTokens, moreItemTokens_eq, List.cons_append, List.append_assoc]

/-- The tokens of an object with entries are those of the entries between braces, with commas
between them. -/
theorem tokens_object_cons (entry : String × Json) (entries : List (String × Json)) :
    (Json.object (entry :: entries)).tokens =
      .openObject :: (tokensOfEntry entry ++
        (entries.flatMap (fun entry => .comma :: tokensOfEntry entry) ++ [.closeObject])) := by
  rw [tokens, entryTokens, moreEntryTokens_eq, tokensOfEntry]
  simp

/-! ## Layouts -/

section Layout

open Token

variable {gap final after : List Char} {write : Json → List Char}

/-- Parts between two marks, with commas between them, and spaces after the first mark, after each
comma and in front of the last mark. -/
def groupChars {α : Type} (first last : Char) (gap final : List Char) (write : α → List Char)
    (part : α) (parts : List α) : List Char :=
  first :: (gap ++ write part ++ (parts.flatMap (fun part => ',' :: (gap ++ write part)) ++
    (final ++ [last])))

/-- Parts between marks are spelled if each part is. -/
theorem spelling_groupChars {α : Type} {first last : Char} {opening closing : Token}
    {tokensOf : α → List Token} {write : α → List Char} {part : α} {parts : List α}
    (hfirst : punctuation? first = some opening) (hlast : punctuation? last = some closing)
    (hgap : ∀ c ∈ gap, isSpace c = true) (hfinal : ∀ c ∈ final, isSpace c = true)
    (hwrite : ∀ other ∈ part :: parts, Spelling (tokensOf other) (write other)) :
    Spelling
      (opening :: (tokensOf part ++ (parts.flatMap (fun part => .comma :: tokensOf part) ++
        [closing])))
      (groupChars first last gap final write part parts) := by
  obtain ⟨hpart, hparts⟩ := List.forall_mem_cons.1 hwrite
  have hmore := Delimited.flatMap fun other hother =>
    Spelling.mark (c := ',') rfl ((hparts other hother).spaces hgap)
  have hend : Delimited [closing] (final ++ [last]) :=
    (Spelling.mark hlast Delimited.nil.spelling).spaces hfinal
  exact (Spelling.mark hfirst ((hpart.spaces hgap).append (hmore.append hend))).spelling

/-- The characters of an entry, with spaces after its colon. -/
def entryChars (after : List Char) (write : Json → List Char) (entry : String × Json) : List Char :=
  Quoted.literal entry.1.toList ++ ':' :: (after ++ write entry.2)

/-- An entry is spelled if its value is. -/
theorem spelling_entryChars {entry : String × Json} (hafter : ∀ c ∈ after, isSpace c = true)
    (hwrite : Spelling entry.2.tokens (write entry.2)) :
    Spelling (tokensOfEntry entry) (entryChars after write entry) := by
  have hname : Spelling [.scalar (.text entry.1)] (Quoted.literal entry.1.toList) :=
    spelling_scalarChars trivial
  exact hname.append (Spelling.mark rfl (hwrite.spaces hafter))

/-! ### Compact texts -/

/-- Written token by token, parts between marks have no spaces. -/
theorem flatMap_chars_group {α : Type} {first last : Char} {opening closing : Token}
    (hfirst : opening.chars = [first]) (hlast : closing.chars = [last])
    (tokensOf : α → List Token) (part : α) (parts : List α) :
    (opening :: (tokensOf part ++ (parts.flatMap (fun part => .comma :: tokensOf part) ++
      [closing]))).flatMap Token.chars =
      groupChars first last [] [] (fun part => (tokensOf part).flatMap Token.chars) part parts := by
  have hcomma : Token.comma.chars = [','] := rfl
  simp only [groupChars, List.flatMap_cons, List.flatMap_append, List.flatMap_nil,
    List.flatMap_assoc, hfirst, hlast, hcomma, List.singleton_append, List.nil_append,
    List.append_nil]

/-- Written token by token, an entry has no spaces. -/
theorem flatMap_chars_entry (entry : String × Json) :
    (tokensOfEntry entry).flatMap Token.chars =
      entryChars [] (fun value => value.tokens.flatMap Token.chars) entry :=
  rfl

/-- The compact text of a value spells its tokens. -/
theorem spelling_compact {json : Json} (h : json.IsRestored) :
    Spelling json.tokens (json.tokens.flatMap Token.chars) := by
  induction h with
  | @scalar s hs =>
    rw [tokens, List.flatMap_singleton]
    exact spelling_scalarChars hs
  | @array items _ ih =>
    cases items with
    | nil => exact (Spelling.mark rfl (Spelling.mark rfl Delimited.nil.spelling).spelling).spelling
    | cons item items =>
      rw [tokens_array_cons, flatMap_chars_group rfl rfl]
      exact spelling_groupChars rfl rfl nofun nofun ih
  | @object entries _ ih =>
    cases entries with
    | nil => exact (Spelling.mark rfl (Spelling.mark rfl Delimited.nil.spelling).spelling).spelling
    | cons entry entries =>
      rw [tokens_object_cons, flatMap_chars_group rfl rfl]
      refine spelling_groupChars rfl rfl nofun nofun fun other hother => ?_
      rw [flatMap_chars_entry]
      exact spelling_entryChars nofun (ih other hother)

/-! ### Texts over several lines -/

/-- The start of a line has spaces only. -/
theorem isSpace_of_mem_lineStart {level : Nat} {c : Char} (h : c ∈ lineStart level) :
    isSpace c = true := by
  rcases List.mem_cons.1 h with rfl | hspace
  · rfl
  · rw [(List.mem_replicate.1 hspace).2]
    rfl

/-- Each further item is written on a line of its own, behind a comma. -/
theorem moreItemChars_eq (level : Nat) (items : List Json) :
    moreItemChars level items =
      items.flatMap fun item => ',' :: (lineStart level ++ indentedChars level item) := by
  induction items with
  | nil => rfl
  | cons item items ih => rw [moreItemChars, ih, List.flatMap_cons]; rfl

/-- Each further entry is written on a line of its own, behind a comma. -/
theorem moreEntryChars_eq (level : Nat) (entries : List (String × Json)) :
    moreEntryChars level entries =
      entries.flatMap fun entry =>
        ',' :: (lineStart level ++ entryChars [' '] (indentedChars level) entry) := by
  induction entries with
  | nil => rfl
  | cons entry entries ih =>
    rw [moreEntryChars, ih, List.flatMap_cons]
    simp [entryChars]

/-- The items of an indented array stand on lines of their own, one level deeper. -/
theorem indentedChars_array_cons (level : Nat) (item : Json) (items : List Json) :
    indentedChars level (.array (item :: items)) =
      groupChars '[' ']' (lineStart (level + 1)) (lineStart level) (indentedChars (level + 1)) item
        items := by
  rw [indentedChars, moreItemChars_eq, groupChars]
  simp only [List.cons_append, List.append_assoc]

/-- The entries of an indented object stand on lines of their own, one level deeper. -/
theorem indentedChars_object_cons (level : Nat) (entry : String × Json)
    (entries : List (String × Json)) :
    indentedChars level (.object (entry :: entries)) =
      groupChars '\x7b' '\x7d' (lineStart (level + 1)) (lineStart level)
        (entryChars [' '] (indentedChars (level + 1))) entry entries := by
  rw [indentedChars, moreEntryChars_eq, groupChars, entryChars]
  simp only [List.cons_append, List.append_assoc, List.nil_append]

/-- A text over several lines spells the tokens of its value. -/
theorem spelling_indented {json : Json} (h : json.IsRestored) (level : Nat) :
    Spelling json.tokens (indentedChars level json) := by
  have hgap : ∀ level, ∀ c ∈ lineStart level, isSpace c = true := fun _ _ hc =>
    isSpace_of_mem_lineStart hc
  induction h generalizing level with
  | scalar hs => exact spelling_scalarChars hs
  | @array items _ ih =>
    cases items with
    | nil => exact (Spelling.mark rfl (Spelling.mark rfl Delimited.nil.spelling).spelling).spelling
    | cons item items =>
      rw [indentedChars_array_cons, tokens_array_cons]
      exact spelling_groupChars rfl rfl (hgap _) (hgap _) fun other hother => ih other hother _
  | @object entries _ ih =>
    cases entries with
    | nil => exact (Spelling.mark rfl (Spelling.mark rfl Delimited.nil.spelling).spelling).spelling
    | cons entry entries =>
      rw [indentedChars_object_cons, tokens_object_cons]
      exact spelling_groupChars rfl rfl (hgap _) (hgap _) fun other hother =>
        spelling_entryChars (List.all_eq_true.1 rfl) (ih other hother _)

end Layout

/-! ## Building values -/

namespace Expecting

variable {stack : List Frame} {json : Json} {items : List Json} {entries : List (String × Json)}

/-- Takes tokens in turn. -/
def run? (state : Expecting) (tokens : List Token) : Option Expecting := tokens.foldlM step? state

/-- More tokens are taken where the first ones lead. -/
theorem run?_append (state : Expecting) (tokens more : List Token) :
    state.run? (tokens ++ more) = (state.run? tokens).bind (·.run? more) :=
  List.foldlM_append

/-- The first token is taken before the others. -/
theorem run?_cons {state next : Expecting} {token : Token} (h : state.step? token = some next)
    (tokens : List Token) : state.run? (token :: tokens) = next.run? tokens := by
  rw [run?, List.foldlM_cons, h]
  rfl

/-- What may be an item may be the first one. -/
theorem run?_firstItem (json : Json) (more : List Token) (stack : List Frame) :
    (Expecting.firstItem stack).run? (json.tokens ++ more) =
      (Expecting.value (.array [] :: stack)).run? (json.tokens ++ more) := by
  cases json <;> rw [tokens] <;> rfl

/-- The items after one that is complete are read in their order. -/
theorem run?_moreItems (hitems : ∀ item ∈ items, ∀ stack,
      (Expecting.value stack).run? item.tokens = some (.after item stack))
    (json : Json) (done : List Json) (stack : List Frame) :
    (Expecting.after json (.array done :: stack)).run?
        (items.flatMap (fun item => .comma :: item.tokens) ++ [.closeArray]) =
      some (.after (.array (done.reverse ++ json :: items)) stack) := by
  induction items generalizing json done with
  | nil => simp [run?, step?]
  | cons item items ih =>
    obtain ⟨hitem, hrest⟩ := List.forall_mem_cons.1 hitems
    have hcomma : (Expecting.after json (.array done :: stack)).step? .comma =
        some (.value (.array (json :: done) :: stack)) := rfl
    rw [List.flatMap_cons, List.cons_append, List.cons_append, List.append_assoc,
      run?_cons hcomma, run?_append, hitem, Option.bind_some, ih hrest]
    simp

/-- An entry with its name. -/
def rawEntry (entry : String × Json) : Option String × Json := (some entry.1, entry.2)

/-- Entries that all have their names make their object. -/
theorem ofRawEntries_reverse (entries : List (String × Json)) :
    ofRawEntries (entries.map rawEntry).reverse = .object entries := by
  have hnames : (entries.map rawEntry).mapM (fun entry =>
      entry.1.map fun name => (name, entry.2)) = some entries := by
    induction entries with
    | nil => rfl
    | cons entry entries ih => rw [List.map_cons, List.mapM_cons, ih]; rfl
  rw [ofRawEntries, List.reverse_reverse, hnames]

/-- The entries after one that is complete are read in their order. -/
theorem run?_moreEntries (hentries : ∀ entry ∈ entries, ∀ stack,
      (Expecting.value stack).run? entry.2.tokens = some (.after entry.2 stack))
    (entry : String × Json) (done : RawEntries) (stack : List Frame) :
    (Expecting.after entry.2 (.object done (some entry.1) :: stack)).run?
        (entries.flatMap (fun entry => .comma :: tokensOfEntry entry) ++ [.closeObject]) =
      some (.after (ofRawEntries (((entry :: entries).map rawEntry).reverse ++ done)) stack) := by
  induction entries generalizing entry done with
  | nil => simp [run?, step?, rawEntry]
  | cons next entries ih =>
    obtain ⟨hnext, hrest⟩ := List.forall_mem_cons.1 hentries
    have hcomma : (Expecting.after entry.2 (.object done (some entry.1) :: stack)).step? .comma =
        some (.name (rawEntry entry :: done) stack) := rfl
    have hname : (Expecting.name (rawEntry entry :: done) stack).step? (.scalar (.text next.1)) =
        some (.colon (rawEntry entry :: done) (some next.1) stack) := rfl
    have hcolon : (Expecting.colon (rawEntry entry :: done) (some next.1) stack).step? .colon =
        some (.value (.object (rawEntry entry :: done) (some next.1) :: stack)) := rfl
    rw [List.flatMap_cons, tokensOfEntry, List.cons_append, List.cons_append, List.cons_append,
      List.cons_append, List.cons_append, List.cons_append, List.append_assoc, run?_cons hcomma,
      run?_cons hname, run?_cons hcolon, run?_append, hnext, Option.bind_some, ih hrest]
    simp

/-- A value is read from its tokens, inside of whatever is still open. -/
theorem run?_tokens (json : Json) (stack : List Frame) :
    (Expecting.value stack).run? json.tokens = some (.after json stack) := by
  induction json using Json.induction generalizing stack with
  | scalar s => rfl
  | array items ih =>
    cases items with
    | nil => rfl
    | cons item items =>
      obtain ⟨hitem, hitems⟩ := List.forall_mem_cons.1 ih
      have hopen : (Expecting.value stack).step? .openArray = some (.firstItem stack) := rfl
      rw [tokens_array_cons, run?_cons hopen, run?_firstItem, run?_append, hitem,
        Option.bind_some, run?_moreItems hitems]
      rfl
  | object entries ih =>
    cases entries with
    | nil => rfl
    | cons entry entries =>
      obtain ⟨hentry, hentries⟩ := List.forall_mem_cons.1 ih
      have hopen : (Expecting.value stack).step? .openObject = some (.firstName stack) := rfl
      have hname : (Expecting.firstName stack).step? (.scalar (.text entry.1)) =
          some (.colon [] (some entry.1) stack) := rfl
      have hcolon : (Expecting.colon [] (some entry.1) stack).step? .colon =
          some (.value (.object [] (some entry.1) :: stack)) := rfl
      rw [tokens_object_cons, tokensOfEntry, List.cons_append, List.cons_append, run?_cons hopen,
        run?_cons hname, run?_cons hcolon, run?_append, hentry, Option.bind_some,
        run?_moreEntries hentries, List.append_nil, ofRawEntries_reverse]

end Expecting

/-- Every value is read from its tokens. -/
theorem ofTokens?_tokens (json : Json) : ofTokens? json.tokens = some json := by
  have hrun := Expecting.run?_tokens json []
  rw [Expecting.run?] at hrun
  rw [ofTokens?, hrun]
  rfl

/-- A text that spells the tokens of a value is read as this value. -/
theorem parse?_eq_some {json : Json} {cs : List Char} (h : Token.Spelling json.tokens cs) :
    parse? (String.ofList cs) = some json := by
  have hspells := h [] [] nofun .nil
  rw [List.append_nil, List.append_nil] at hspells
  rw [parse?, String.toList_ofList, hspells.scan?_eq]
  exact ofTokens?_tokens json

/-- A value whose numbers are restored is read back from its text, on one line or on several. -/
theorem parse?_compact_indented {json : Json} (h : json.IsRestored) :
    parse? json.compact = some json ∧ parse? json.indented = some json :=
  ⟨parse?_eq_some (spelling_compact h), parse?_eq_some (spelling_indented h 0)⟩


end Json

end PageTree
