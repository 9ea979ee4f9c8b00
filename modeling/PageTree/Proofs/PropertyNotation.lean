import Mathlib.Data.List.Basic
import PageTree.Proofs.PropertyName

/-! # Two notations of a property name

The hyphenated and the camel-case notation of a name are inverse to each other.
**`PropertyName.IsHyphenated`** are the names in hyphenated notation, words joined by single
hyphens, and **`PropertyName.IsCamelCase`** those in camel case. The first letter of a word behind a
hyphen is the capital of the other notation (**`PropertyName.flatMap_joinWords`** and
**`PropertyName.joinWords_flatMap`**); the vendor `ms` alone is in small letters in both. Main
statement: `PropertyName.notations_inverse`. -/

namespace PageTree.PropertyName

variable {c : Char} {cs ds : List Char}

/-! ## Names in either notation -/

/-- Whether characters are a word of a hyphenated name: a small letter, and behind it small letters
and digits. -/
def isWord : List Char → Bool
  | [] => false
  | c :: cs => c.isLower && cs.all fun d => d.isLower || d.isDigit

/-- A hyphenated name: one or more words joined by single hyphens, and in front of them a hyphen or
nothing. -/
def IsHyphenated (cs : List Char) : Prop :=
  ∃ (front : List Char) (words : List (List Char)), (front = [] ∨ front = ['-']) ∧ words ≠ [] ∧
    (∀ word ∈ words, isWord word = true) ∧ cs = front ++ ['-'].intercalate words

/-- A camel-case name: a letter, and behind it letters and digits. -/
def IsCamelCase : List Char → Prop
  | [] => False
  | c :: cs => c.isAlpha = true ∧ ∀ d ∈ cs, d.isAlphanum = true

/-- A name in camel case that has `Ms` in front and then a capital. In hyphenated notation it has
the vendor `ms` in front, which camel case writes in small letters. -/
def HasCapitalMs (cs : List Char) : Prop :=
  ∃ c rest, c.isUpper = true ∧ cs = 'M' :: 's' :: c :: rest

/-! ## The rest of a hyphenated name -/

/-- What follows the first letter of a hyphenated name: small letters, digits, and hyphens with the
first letter of another word behind them. -/
inductive GoesOn : List Char → Prop where
  /-- The name ends. -/
  | nil : GoesOn []
  /-- The word goes on. -/
  | char {c : Char} {cs : List Char} :
      (c.isLower || c.isDigit) = true → GoesOn cs → GoesOn (c :: cs)
  /-- Another word comes. -/
  | hyphen {c : Char} {cs : List Char} : c.isLower = true → GoesOn cs → GoesOn ('-' :: c :: cs)

/-- The first word of a name, and the others with a hyphen in front of each. -/
theorem intercalate_hyphen (word : List Char) (words : List (List Char)) :
    ['-'].intercalate (word :: words) = word ++ words.flatMap ('-' :: ·) := by
  induction words generalizing word with
  | nil => simp
  | cons next words ih => simp [List.intercalate_cons_cons, ih]

/-- More letters and digits of a word may stand in front of what may follow. -/
theorem goesOn_append (h : cs.all (fun d => d.isLower || d.isDigit) = true) (hds : GoesOn ds) :
    GoesOn (cs ++ ds) := by
  induction cs with
  | nil => exact hds
  | cons c cs ih =>
    rw [List.all_cons, Bool.and_eq_true] at h
    exact .char h.1 (ih h.2)

/-- Words with a hyphen in front of each may follow the first letter. -/
theorem goesOn_flatMap {words : List (List Char)} (h : ∀ word ∈ words, isWord word = true) :
    GoesOn (words.flatMap ('-' :: ·)) := by
  induction words with
  | nil => exact .nil
  | cons word words ih =>
    rw [List.forall_mem_cons] at h
    cases word with
    | nil => exact absurd h.1 Bool.false_ne_true
    | cons c word =>
      rw [isWord, Bool.and_eq_true] at h
      exact .hyphen h.1.1 (goesOn_append h.1.2 (ih h.2))

/-- What follows the first letter of a name is the rest of its word and other words. -/
theorem GoesOn.exists_words (h : GoesOn cs) :
    ∃ (rest : List Char) (words : List (List Char)),
      rest.all (fun d => d.isLower || d.isDigit) = true ∧
      (∀ word ∈ words, isWord word = true) ∧ cs = rest ++ words.flatMap ('-' :: ·) := by
  induction h with
  | nil => exact ⟨[], [], rfl, by simp, rfl⟩
  | @char c cs hc _ ih =>
    obtain ⟨rest, words, hrest, hwords, rfl⟩ := ih
    exact ⟨c :: rest, words, by simp [hc, hrest], hwords, rfl⟩
  | @hyphen c cs hc _ ih =>
    obtain ⟨rest, words, hrest, hwords, rfl⟩ := ih
    refine ⟨[], (c :: rest) :: words, rfl, List.forall_mem_cons.2 ⟨?_, hwords⟩, by simp⟩
    rw [isWord, hc, hrest]
    rfl

/-- A hyphenated name letter by letter: a small letter, in front of it a hyphen or nothing, and what
may follow. -/
theorem isHyphenated_iff :
    IsHyphenated cs ↔
      ∃ c rest, (cs = c :: rest ∨ cs = '-' :: c :: rest) ∧ c.isLower = true ∧ GoesOn rest := by
  constructor
  · rintro ⟨front, words, hfront, hne, hwords, rfl⟩
    cases words with
    | nil => contradiction
    | cons word words =>
      rw [List.forall_mem_cons] at hwords
      cases word with
      | nil => exact absurd hwords.1 Bool.false_ne_true
      | cons c word =>
        rw [isWord, Bool.and_eq_true] at hwords
        refine ⟨c, word ++ words.flatMap ('-' :: ·), ?_, hwords.1.1,
          goesOn_append hwords.1.2 (goesOn_flatMap hwords.2)⟩
        rw [intercalate_hyphen]
        rcases hfront with rfl | rfl
        · exact .inl rfl
        · exact .inr rfl
  · rintro ⟨c, rest, hcs, hc, hrest⟩
    obtain ⟨word, words, hword, hwords, rfl⟩ := hrest.exists_words
    have hall : ∀ other ∈ (c :: word) :: words, isWord other = true := by
      refine List.forall_mem_cons.2 ⟨?_, hwords⟩
      rw [isWord, hc, hword]
      rfl
    rcases hcs with rfl | rfl
    · exact ⟨[], _, .inl rfl, List.cons_ne_nil _ _, hall, by simp [intercalate_hyphen]⟩
    · exact ⟨['-'], _, .inr rfl, List.cons_ne_nil _ _, hall, by simp [intercalate_hyphen]⟩

/-! ## Letters -/

/-- The hyphen is neither a letter nor a digit. -/
theorem ne_hyphen_of_isAlphanum (h : c.isAlphanum = true) : c ≠ '-' := by
  rintro rfl
  contradiction

/-- The letters are those of either case. -/
theorem isAlpha_eq (c : Char) : c.isAlpha = (c.isUpper || c.isLower) := rfl

/-- A small letter may stand in a camel-case name. -/
theorem isAlphanum_of_isLower (h : c.isLower = true) : c.isAlphanum = true := by
  simp [Char.isAlphanum, isAlpha_eq, h]

/-- A small letter is not the hyphen. -/
theorem ne_hyphen_of_isLower (h : c.isLower = true) : c ≠ '-' :=
  ne_hyphen_of_isAlphanum (isAlphanum_of_isLower h)

/-- No small letter is a capital. -/
theorem isUpper_eq_false_of_isLower (h : c.isLower = true) : c.isUpper = false :=
  of_isLower h (by decide)

/-- The capital of a small letter is one. -/
theorem isUpper_toUpper (h : c.isLower = true) : c.toUpper.isUpper = true :=
  of_isLower h (by decide)

/-- The small letter of a capital is one. -/
theorem isLower_toLower (h : c.isUpper = true) : c.toLower.isLower = true :=
  of_isUpper h (by decide)

/-- A small letter is found again from its capital. -/
theorem toLower_toUpper (h : c.isLower = true) : c.toUpper.toLower = c :=
  of_isLower h (by decide)

/-- A capital is found again from its small letter. -/
theorem toUpper_toLower (h : c.isUpper = true) : c.toLower.toUpper = c :=
  of_isUpper h (by decide)

/-- What may go on a word has no capital and is no hyphen. -/
theorem isUpper_eq_false_and_ne_hyphen (h : (c.isLower || c.isDigit) = true) :
    c.isUpper = false ∧ c ≠ '-' := by
  rcases Bool.or_eq_true _ _ ▸ h with hlower | hdigit
  · exact ⟨isUpper_eq_false_of_isLower hlower, ne_hyphen_of_isLower hlower⟩
  · refine ⟨?_, ne_hyphen_of_isAlphanum (by simp [Char.isAlphanum, hdigit])⟩
    by_contra hupper
    rw [Bool.not_eq_false, isUpper_iff, UInt32.le_iff_toNat_le] at hupper
    have hbound := (Char.isDigit_iff_toNat.1 hdigit).2
    exact absurd (Nat.le_trans hupper.1 hbound) (by decide)

/-! ## Joining words and taking them apart -/

/-- A character that is no hyphen stays as it is within a word. -/
theorem joinWords_cons (hc : c ≠ '-') (cs : List Char) :
    joinWords false (c :: cs) = c :: joinWords false cs := by
  rw [joinWords, if_neg hc, if_neg Bool.false_ne_true]

/-- Behind a hyphen the next character is raised. -/
theorem joinWords_cons_raised (hc : c ≠ '-') (cs : List Char) :
    joinWords true (c :: cs) = c.toUpper :: joinWords false cs := by
  rw [joinWords, if_neg hc, if_pos rfl]

/-- A capital starts another word. -/
theorem flatMap_of_isUpper (h : c.isUpper = true) (cs : List Char) :
    (c :: cs).flatMap hyphenatedChar = '-' :: c.toLower :: cs.flatMap hyphenatedChar := by
  rw [List.flatMap_cons, hyphenatedChar, if_pos h]
  rfl

/-- Any other character stays as it is. -/
theorem flatMap_of_not_isUpper (h : ¬c.isUpper = true) (cs : List Char) :
    (c :: cs).flatMap hyphenatedChar = c :: cs.flatMap hyphenatedChar := by
  rw [List.flatMap_cons, hyphenatedChar, if_neg h, List.singleton_append]

/-- A hyphen is dropped, and what is behind it raised. -/
theorem joinWords_hyphen (raise : Bool) (cs : List Char) :
    joinWords raise ('-' :: cs) = joinWords true cs := by
  rw [joinWords, if_pos rfl]

/-- The words of a name are found again by their capitals. -/
theorem flatMap_joinWords (h : GoesOn cs) : (joinWords false cs).flatMap hyphenatedChar = cs := by
  induction h with
  | nil => rfl
  | char hc _ ih =>
    obtain ⟨hupper, hhyphen⟩ := isUpper_eq_false_and_ne_hyphen hc
    rw [joinWords_cons hhyphen, flatMap_of_not_isUpper (by simp [hupper]), ih]
  | hyphen hc _ ih =>
    rw [joinWords_hyphen, joinWords_cons_raised (ne_hyphen_of_isLower hc),
      flatMap_of_isUpper (isUpper_toUpper hc), toLower_toUpper hc, ih]

/-- The capitals of a name are found again behind its hyphens. -/
theorem joinWords_flatMap (h : '-' ∉ cs) : joinWords false (cs.flatMap hyphenatedChar) = cs := by
  induction cs with
  | nil => rfl
  | cons c cs ih =>
    rw [List.mem_cons, not_or] at h
    by_cases hupper : c.isUpper = true
    · rw [flatMap_of_isUpper hupper, joinWords_hyphen,
        joinWords_cons_raised (ne_hyphen_of_isUpper hupper).2, ih h.2, toUpper_toLower hupper]
    · rw [flatMap_of_not_isUpper hupper, joinWords_cons (Ne.symm h.1), ih h.2]

/-! ## Camel case of hyphenated names -/

/-- Where the letters of a camel-case name come from: those of a word, and capitals. -/
theorem GoesOn.isAlphanum_joinWords (h : GoesOn cs) :
    ∀ d ∈ joinWords false cs, d.isAlphanum = true := by
  induction h with
  | nil => simp [joinWords]
  | @char c cs hc _ ih =>
    rw [joinWords_cons (isUpper_eq_false_and_ne_hyphen hc).2, List.forall_mem_cons]
    refine ⟨?_, ih⟩
    rcases Bool.or_eq_true _ _ ▸ hc with hlower | hdigit
    · exact isAlphanum_of_isLower hlower
    · simp [Char.isAlphanum, hdigit]
  | @hyphen c cs hc _ ih =>
    rw [joinWords_hyphen, joinWords_cons_raised (ne_hyphen_of_isLower hc),
      List.forall_mem_cons]
    exact ⟨by simp [Char.isAlphanum, isAlpha_eq, isUpper_toUpper hc], ih⟩

/-- The name of a custom property has a hyphen in front. -/
theorem isCustom_of_ne (hc : c ≠ '-') (cs : List Char) : isCustom (c :: cs) = false := by
  unfold isCustom
  split
  next heq => exact absurd (List.cons.inj heq).1 hc
  next => rfl

/-- The name of a custom property has two hyphens in front. -/
theorem isCustom_hyphen_of_ne (hc : c ≠ '-') (cs : List Char) :
    isCustom ('-' :: c :: cs) = false := by
  unfold isCustom
  split
  next heq => exact absurd (List.cons.inj (List.cons.inj heq).2).1 hc
  next => rfl

/-- The vendor `ms` is in front of a name exactly when a capital follows these letters. -/
theorem hasVendorMs_iff :
    hasVendorMs cs = true ↔ ∃ d rest, d.isUpper = true ∧ cs = 'm' :: 's' :: d :: rest := by
  constructor
  · intro h
    unfold hasVendorMs at h
    split at h
    next d rest => exact ⟨d, rest, h, rfl⟩
    next => contradiction
  · rintro ⟨d, rest, hd, rfl⟩
    exact hd

/-- The hyphenated notation of a name with the vendor `ms` in front. -/
theorem hyphenatedChars_vendorMs (h : hasVendorMs cs = true) :
    hyphenatedChars cs = '-' :: cs.flatMap hyphenatedChar := by
  obtain ⟨d, rest, -, rfl⟩ := hasVendorMs_iff.1 h
  rw [hyphenatedChars, isCustom_of_ne (by decide), if_neg Bool.false_ne_true, if_pos h]
  rfl

/-- The hyphenated notation of any other name without a hyphen in front. -/
theorem hyphenatedChars_letter (hc : c ≠ '-') (h : hasVendorMs (c :: cs) = false) :
    hyphenatedChars (c :: cs) = (c :: cs).flatMap hyphenatedChar := by
  rw [hyphenatedChars, isCustom_of_ne hc, h, if_neg Bool.false_ne_true, if_neg Bool.false_ne_true,
    List.nil_append]

/-- The camel case of a name without a hyphen in front. -/
theorem camelCaseChars_letter (hc : c ≠ '-') (cs : List Char) :
    camelCaseChars (c :: cs) = c :: joinWords false cs := by
  have hdrop : dropVendorHyphen (c :: cs) = c :: cs := by
    unfold dropVendorHyphen
    split
    next heq => exact absurd (List.cons.inj heq).1 hc
    next => rfl
  rw [camelCaseChars, isCustom_of_ne hc, if_neg Bool.false_ne_true, hdrop, joinWords_cons hc]

/-- A name with `ms` and a hyphen in front, letter by letter. -/
theorem isPrefix_ms_iff :
    ['m', 's', '-'] <+: c :: cs ↔ ∃ rest, c = 'm' ∧ cs = 's' :: '-' :: rest := by
  constructor
  · rintro ⟨rest, hrest⟩
    obtain ⟨rfl, rfl⟩ := List.cons.inj hrest.symm
    exact ⟨rest, rfl, rfl⟩
  · rintro ⟨rest, rfl, rfl⟩
    exact ⟨rest, rfl⟩

/-- The camel case of a name with the vendor `ms` in front. -/
theorem camelCaseChars_vendorMs (cs : List Char) :
    camelCaseChars ('-' :: 'm' :: 's' :: '-' :: cs) = 'm' :: 's' :: joinWords true cs := by
  rw [camelCaseChars, isCustom_hyphen_of_ne (by decide), dropVendorHyphen,
    if_neg Bool.false_ne_true, joinWords_cons (by decide), joinWords_cons (by decide),
    joinWords_hyphen]

/-- The camel case of a name with another vendor in front, which gets a capital. -/
theorem camelCaseChars_hyphen (hc : c ≠ '-') (h : ¬['m', 's', '-'] <+: c :: cs) :
    camelCaseChars ('-' :: c :: cs) = c.toUpper :: joinWords false cs := by
  have hdrop : dropVendorHyphen ('-' :: c :: cs) = '-' :: c :: cs := by
    unfold dropVendorHyphen
    split
    next heq =>
      rw [(List.cons.inj heq).2] at h
      simp at h
    next => rfl
  rw [camelCaseChars, isCustom_hyphen_of_ne hc, hdrop, if_neg Bool.false_ne_true, joinWords_hyphen,
    joinWords_cons_raised hc]

/-- The camel case of a name that starts with a letter has the vendor `ms` in front only if the name
has these letters and a hyphen in front. -/
theorem hasVendorMs_joinWords (h : GoesOn cs) (hms : ¬['m', 's', '-'] <+: c :: cs) :
    hasVendorMs (c :: joinWords false cs) = false := by
  by_contra hvendor
  obtain ⟨d, rest, hd, heq⟩ := hasVendorMs_iff.1 (Bool.not_eq_false _ ▸ hvendor)
  obtain ⟨rfl, hjoin⟩ := List.cons.inj heq
  cases h with
  | nil => contradiction
  | char hs htail =>
    rw [joinWords_cons (isUpper_eq_false_and_ne_hyphen hs).2, List.cons.injEq] at hjoin
    obtain ⟨rfl, hjoin⟩ := hjoin
    -- behind the two letters the word goes on without a capital, or the hyphen stands there
    cases htail with
    | nil => contradiction
    | char he _ =>
      obtain ⟨hupper, hhyphen⟩ := isUpper_eq_false_and_ne_hyphen he
      rw [joinWords_cons hhyphen, List.cons.injEq] at hjoin
      rw [← hjoin.1, hupper] at hd
      contradiction
    | hyphen _ _ => simp at hms
  | hyphen hs _ =>
    rw [joinWords_hyphen, joinWords_cons_raised
      (ne_hyphen_of_isLower hs)] at hjoin
    have hupper := isUpper_toUpper hs
    rw [(List.cons.inj hjoin).1] at hupper
    contradiction

/-- The camel case of a hyphenated name is a camel-case name. -/
theorem isCamelCase_camelCaseChars (h : IsHyphenated cs) : IsCamelCase (camelCaseChars cs) := by
  obtain ⟨c, rest, hcs, hc, hrest⟩ := isHyphenated_iff.1 h
  have hhyphen := ne_hyphen_of_isLower hc
  have hletters := hrest.isAlphanum_joinWords
  rcases hcs with rfl | rfl
  · rw [camelCaseChars_letter hhyphen]
    exact ⟨by simp [isAlpha_eq, hc], hletters⟩
  · by_cases hms : ['m', 's', '-'] <+: c :: rest
    · obtain ⟨tail, rfl, rfl⟩ := isPrefix_ms_iff.1 hms
      rw [joinWords_cons (by decide), joinWords_hyphen] at hletters
      rw [camelCaseChars_vendorMs]
      exact ⟨rfl, hletters⟩
    · rw [camelCaseChars_hyphen hhyphen hms]
      exact ⟨by simp [isAlpha_eq, isUpper_toUpper hc], hletters⟩

/-- A hyphenated name is found again from its camel case, unless it has `ms` and a hyphen in front,
which are taken for the vendor. -/
theorem hyphenatedChars_camelCaseChars (h : IsHyphenated cs) (hms : ¬['m', 's', '-'] <+: cs) :
    hyphenatedChars (camelCaseChars cs) = cs := by
  obtain ⟨c, rest, hcs, hc, hrest⟩ := isHyphenated_iff.1 h
  have hhyphen := ne_hyphen_of_isLower hc
  have hwords := flatMap_joinWords hrest
  rcases hcs with rfl | rfl
  · rw [camelCaseChars_letter hhyphen,
      hyphenatedChars_letter hhyphen (hasVendorMs_joinWords hrest hms),
      flatMap_of_not_isUpper (by simp [isUpper_eq_false_of_isLower hc]), hwords]
  · by_cases hvendor : ['m', 's', '-'] <+: c :: rest
    · obtain ⟨tail, rfl, rfl⟩ := isPrefix_ms_iff.1 hvendor
      rw [joinWords_cons (by decide), joinWords_hyphen] at hwords
      -- the letter behind the vendor is a capital, by which the vendor is known
      cases hrest with
      | char _ hmore =>
        cases hmore with
        | hyphen hd _ =>
          have hd' := ne_hyphen_of_isLower hd
          rw [joinWords_cons_raised hd'] at hwords
          rw [camelCaseChars_vendorMs, joinWords_cons_raised hd',
            hyphenatedChars_vendorMs (hasVendorMs_iff.2 ⟨_, _, isUpper_toUpper hd, rfl⟩),
            flatMap_of_not_isUpper (by decide), hwords]
        | char hd _ => exact absurd rfl (isUpper_eq_false_and_ne_hyphen hd).2
    · have hupper := isUpper_toUpper hc
      have hcapital := (ne_hyphen_of_isUpper hupper).1
      have hfalse : hasVendorMs (c.toUpper :: joinWords false rest) = false := by
        by_contra htrue
        obtain ⟨d, tail, -, heq⟩ := hasVendorMs_iff.1 (Bool.not_eq_false _ ▸ htrue)
        rw [(List.cons.inj heq).1] at hupper
        contradiction
      rw [camelCaseChars_hyphen hhyphen hvendor, hyphenatedChars_letter hcapital hfalse,
        flatMap_of_isUpper hupper, toLower_toUpper hc, hwords]

/-! ## Hyphenated notation of camel-case names -/

/-- Among letters and digits there is no hyphen. -/
theorem hyphen_notMem_of_isAlphanum (h : ∀ d ∈ cs, d.isAlphanum = true) : '-' ∉ cs :=
  fun hmem => absurd (h '-' hmem) (by decide)

/-- The hyphenated notation of letters and digits may follow the first letter of a name. -/
theorem goesOn_flatMap_hyphenatedChar (h : ∀ d ∈ cs, d.isAlphanum = true) :
    GoesOn (cs.flatMap hyphenatedChar) := by
  induction cs with
  | nil => exact .nil
  | cons c cs ih =>
    rw [List.forall_mem_cons] at h
    by_cases hupper : c.isUpper = true
    · rw [flatMap_of_isUpper hupper]
      exact .hyphen (isLower_toLower hupper) (ih h.2)
    · rw [flatMap_of_not_isUpper hupper]
      refine .char ?_ (ih h.2)
      simpa [Char.isAlphanum, isAlpha_eq, hupper] using h.1

/-- The hyphenated notation of a camel-case name is a hyphenated name. -/
theorem isHyphenated_hyphenatedChars (h : IsCamelCase cs) : IsHyphenated (hyphenatedChars cs) := by
  cases cs with
  | nil => exact h.elim
  | cons c rest =>
    obtain ⟨hc, hrest⟩ := h
    have hwords := goesOn_flatMap_hyphenatedChar hrest
    have hhyphen : c ≠ '-' := ne_hyphen_of_isAlphanum (by simp [Char.isAlphanum, hc])
    rw [isHyphenated_iff]
    by_cases hvendor : hasVendorMs (c :: rest) = true
    · obtain ⟨d, tail, -, heq⟩ := hasVendorMs_iff.1 hvendor
      obtain ⟨rfl, -⟩ := List.cons.inj heq
      exact ⟨'m', rest.flatMap hyphenatedChar, .inr (hyphenatedChars_vendorMs hvendor), rfl, hwords⟩
    · rw [hyphenatedChars_letter hhyphen (Bool.not_eq_true _ ▸ hvendor)]
      by_cases hupper : c.isUpper = true
      · rw [flatMap_of_isUpper hupper]
        exact ⟨c.toLower, _, .inr rfl, isLower_toLower hupper, hwords⟩
      · rw [flatMap_of_not_isUpper hupper]
        refine ⟨c, _, .inl rfl, ?_, hwords⟩
        simpa [isAlpha_eq, hupper] using hc

/-- The hyphenated notation has `ms` and a hyphen behind the first one only for the vendor and for
a name that has `Ms` and a capital in front. -/
theorem hasCapitalMs_of_isPrefix (hc : c.isUpper = true) (hcs : '-' ∉ cs)
    (h : ['m', 's', '-'] <+: c.toLower :: cs.flatMap hyphenatedChar) : HasCapitalMs (c :: cs) := by
  obtain ⟨rest, hm, hs⟩ := isPrefix_ms_iff.1 h
  have hcapital : c = 'M' := by
    rw [← toUpper_toLower hc, hm]
    rfl
  -- the next two letters are read off one after the other: an `s` and a capital
  cases cs with
  | nil => contradiction
  | cons d cs =>
    by_cases hd : d.isUpper = true
    · rw [flatMap_of_isUpper hd] at hs
      exact absurd (List.cons.inj hs).1 (by decide)
    · rw [flatMap_of_not_isUpper hd, List.cons.injEq] at hs
      obtain ⟨rfl, hs⟩ := hs
      cases cs with
      | nil => contradiction
      | cons e cs =>
        by_cases he : e.isUpper = true
        · exact ⟨e, cs, he, by rw [hcapital]⟩
        · rw [flatMap_of_not_isUpper he, List.cons.injEq] at hs
          obtain ⟨rfl, -⟩ := hs
          simp at hcs

/-- A camel-case name is found again from its hyphenated notation, unless it has `Ms` and a capital
in front, which are taken for the vendor. -/
theorem camelCaseChars_hyphenatedChars (h : IsCamelCase cs) (hms : ¬HasCapitalMs cs) :
    camelCaseChars (hyphenatedChars cs) = cs := by
  cases cs with
  | nil => exact h.elim
  | cons c rest =>
    obtain ⟨hc, hrest⟩ := h
    have hnone := hyphen_notMem_of_isAlphanum hrest
    have hhyphen : c ≠ '-' := ne_hyphen_of_isAlphanum (by simp [Char.isAlphanum, hc])
    by_cases hvendor : hasVendorMs (c :: rest) = true
    · -- behind the hyphen for the vendor stands the notation of the name letter by letter
      have hjoin := joinWords_flatMap (List.not_mem_cons_of_ne_of_not_mem (Ne.symm hhyphen) hnone)
      rw [hyphenatedChars_vendorMs hvendor]
      obtain ⟨d, tail, hd, heq⟩ := hasVendorMs_iff.1 hvendor
      obtain ⟨rfl, rfl⟩ := List.cons.inj heq
      rw [flatMap_of_not_isUpper (by decide), flatMap_of_not_isUpper (by decide),
        flatMap_of_isUpper hd] at hjoin ⊢
      rw [camelCaseChars_vendorMs]
      rwa [joinWords_cons (by decide), joinWords_cons (by decide), joinWords_hyphen] at hjoin
    · rw [hyphenatedChars_letter hhyphen (Bool.not_eq_true _ ▸ hvendor)]
      by_cases hupper : c.isUpper = true
      · rw [flatMap_of_isUpper hupper, camelCaseChars_hyphen (ne_hyphen_of_isUpper hupper).2
            fun hp => hms (hasCapitalMs_of_isPrefix hupper hnone hp),
          joinWords_flatMap hnone, toUpper_toLower hupper]
      · rw [flatMap_of_not_isUpper hupper, camelCaseChars_letter hhyphen, joinWords_flatMap hnone]

/-! ## Names in a notation already -/

/-- Where there is no capital, no word is split off. -/
theorem flatMap_hyphenatedChar_eq_self (h : ∀ d ∈ cs, d.isUpper = false) :
    cs.flatMap hyphenatedChar = cs := by
  induction cs with
  | nil => rfl
  | cons c cs ih =>
    rw [List.forall_mem_cons] at h
    rw [flatMap_of_not_isUpper (by simp [h.1]), ih h.2]

/-- A name without capitals is its own hyphenated notation. -/
theorem hyphenatedChars_eq_self (h : ∀ d ∈ cs, d.isUpper = false) : hyphenatedChars cs = cs := by
  have hvendor : hasVendorMs cs = false := by
    by_contra htrue
    obtain ⟨d, rest, hd, rfl⟩ := hasVendorMs_iff.1 (Bool.not_eq_false _ ▸ htrue)
    rw [h d (by simp)] at hd
    contradiction
  rw [hyphenatedChars, hvendor, flatMap_hyphenatedChar_eq_self h, if_neg Bool.false_ne_true,
    List.nil_append, ite_self]

/-- The hyphenated notation has no capitals, whatever the name is, unless it is a custom
property. -/
theorem isUpper_eq_false_of_mem_hyphenatedChars (hcustom : isCustom cs = false) :
    ∀ d ∈ hyphenatedChars cs, d.isUpper = false := by
  have hchar : ∀ c, ∀ d ∈ hyphenatedChar c, d.isUpper = false := by
    intro c d hd
    rw [hyphenatedChar] at hd
    split at hd
    next hupper =>
      rcases List.mem_pair.1 hd with rfl | rfl
      · rfl
      · exact isUpper_eq_false_of_isLower (isLower_toLower hupper)
    next hupper =>
      obtain rfl := List.mem_singleton.1 hd
      simpa using hupper
  intro d hd
  rw [hyphenatedChars, hcustom, if_neg Bool.false_ne_true, List.mem_append] at hd
  rcases hd with hfront | hflat
  · have hhyphen : d = '-' := by
      split at hfront
      · exact List.mem_singleton.1 hfront
      · exact absurd hfront List.not_mem_nil
    rw [hhyphen]
    rfl
  · obtain ⟨c, -, hd⟩ := List.mem_flatMap.1 hflat
    exact hchar c d hd

/-- Where there is no hyphen, nothing is joined. -/
theorem joinWords_eq_self (h : '-' ∉ cs) : joinWords false cs = cs := by
  induction cs with
  | nil => rfl
  | cons c cs ih =>
    rw [List.mem_cons, not_or] at h
    rw [joinWords_cons (Ne.symm h.1), ih h.2]

/-- A name without hyphens is its own camel case. -/
theorem camelCaseChars_eq_self (h : '-' ∉ cs) : camelCaseChars cs = cs := by
  cases cs with
  | nil => rfl
  | cons c cs =>
    rw [List.mem_cons, not_or] at h
    rw [camelCaseChars_letter (Ne.symm h.1), joinWords_eq_self h.2]

/-- No hyphen is left when words are joined. -/
theorem hyphen_notMem_joinWords (raise : Bool) (cs : List Char) : '-' ∉ joinWords raise cs := by
  induction cs generalizing raise with
  | nil => exact List.not_mem_nil
  | cons c cs ih =>
    by_cases hc : c = '-'
    · rw [hc, joinWords_hyphen]
      exact ih true
    · cases raise with
      | false =>
        rw [joinWords_cons hc]
        exact List.not_mem_cons_of_ne_of_not_mem (Ne.symm hc) (ih false)
      | true =>
        rw [joinWords_cons_raised hc]
        exact List.not_mem_cons_of_ne_of_not_mem (Ne.symm (toUpper_ne_hyphen hc)) (ih false)

/-- The hyphenated notation is its own hyphenated notation. -/
theorem hyphenatedChars_hyphenatedChars (cs : List Char) :
    hyphenatedChars (hyphenatedChars cs) = hyphenatedChars cs := by
  by_cases hcustom : isCustom cs = true
  · rw [hyphenatedChars_of_isCustom hcustom, hyphenatedChars_of_isCustom hcustom]
  · exact hyphenatedChars_eq_self
      (isUpper_eq_false_of_mem_hyphenatedChars (Bool.not_eq_true _ ▸ hcustom))

/-- The camel case of a name is its own camel case. -/
theorem camelCaseChars_camelCaseChars (cs : List Char) :
    camelCaseChars (camelCaseChars cs) = camelCaseChars cs := by
  by_cases hcustom : isCustom cs = true
  · rw [camelCaseChars_of_isCustom hcustom, camelCaseChars_of_isCustom hcustom]
  · refine camelCaseChars_eq_self ?_
    rw [camelCaseChars, if_neg hcustom]
    exact hyphen_notMem_joinWords false _

/-! ## The notations together -/

/-- A name with two hyphens in front is that of a custom property. -/
theorem isCustom_of_isPrefix (h : ['-', '-'] <+: cs) : isCustom cs = true := by
  obtain ⟨rest, rfl⟩ := h
  rfl

/-- **The two notations are inverse to each other.** A hyphenated name becomes a camel-case name and
is found again from it, unless it has `ms` and a hyphen in front; a camel-case name becomes a
hyphenated name and is found again from it, unless it has `Ms` and a capital in front. The names of
custom properties are the same in both notations. Of any text, a name or not, the notation of its
notation is this notation. -/
theorem notations_inverse :
    (∀ name : String, IsHyphenated name.toList → IsCamelCase (camelCase name).toList ∧
      (¬"ms-".toList <+: name.toList → hyphenated (camelCase name) = name)) ∧
    (∀ name : String, IsCamelCase name.toList → IsHyphenated (hyphenated name).toList ∧
      (¬HasCapitalMs name.toList → camelCase (hyphenated name) = name)) ∧
    (∀ name : String, "--".toList <+: name.toList →
      hyphenated name = name ∧ camelCase name = name) ∧
    ∀ name : String, hyphenated (hyphenated name) = hyphenated name ∧
      camelCase (camelCase name) = camelCase name := by
  simp only [hyphenated, camelCase, String.toList_ofList]
  refine ⟨fun name h => ⟨isCamelCase_camelCaseChars h, fun hms => ?_⟩,
    fun name h => ⟨isHyphenated_hyphenatedChars h, fun hms => ?_⟩, fun name h => ?_, fun name => ?_⟩
  · rw [hyphenatedChars_camelCaseChars h hms, String.ofList_toList]
  · rw [camelCaseChars_hyphenatedChars h hms, String.ofList_toList]
  · have hcustom := isCustom_of_isPrefix h
    rw [hyphenatedChars_of_isCustom hcustom, camelCaseChars_of_isCustom hcustom,
      String.ofList_toList]
    exact ⟨rfl, rfl⟩
  · rw [hyphenatedChars_hyphenatedChars, camelCaseChars_camelCaseChars]
    exact ⟨rfl, rfl⟩

/-- Names with a vendor in front, one of them `ms`, and that of a custom property. A name that only
looks like one with the vendor `ms` is not found again. -/
theorem notations_inverse_of_vendors :
    (IsHyphenated "-webkit-transform".toList ∧ ¬"ms-".toList <+: "-webkit-transform".toList ∧
      camelCase "-webkit-transform" = "WebkitTransform" ∧
      IsCamelCase (camelCase "-webkit-transform").toList ∧
      hyphenated (camelCase "-webkit-transform") = "-webkit-transform") ∧
    (IsCamelCase "msGridRow2".toList ∧ ¬HasCapitalMs "msGridRow2".toList ∧
      hyphenated "msGridRow2" = "-ms-grid-row2" ∧ IsHyphenated (hyphenated "msGridRow2").toList ∧
      camelCase (hyphenated "msGridRow2") = "msGridRow2") ∧
    ("--".toList <+: "--Brand-ms".toList ∧ hyphenated "--Brand-ms" = "--Brand-ms" ∧
      camelCase "--Brand-ms" = "--Brand-ms") ∧
    hyphenated (camelCase "ms-grid") = "-ms-grid" ∧ camelCase (hyphenated "MsGrid") = "msGrid" := by
  obtain ⟨hinverse, hback, hcustom, -⟩ := notations_inverse
  have hname : IsHyphenated "-webkit-transform".toList :=
    ⟨['-'], ["webkit".toList, "transform".toList], .inr rfl, by decide, by decide, by decide⟩
  have hms : ¬"ms-".toList <+: "-webkit-transform".toList := by decide
  have hcamel : IsCamelCase "msGridRow2".toList := ⟨rfl, List.all_eq_true.1 (by decide)⟩
  have hcapital : ¬HasCapitalMs "msGridRow2".toList := by
    rintro ⟨c, rest, -, h⟩
    exact absurd (List.cons.inj h).1 (by decide)
  have hbrand : "--".toList <+: "--Brand-ms".toList := by decide
  obtain ⟨hiscamel, hfound⟩ := hinverse _ hname
  obtain ⟨hisname, hfound'⟩ := hback _ hcamel
  exact ⟨⟨hname, hms, by decide, hiscamel, hfound hms⟩,
    ⟨hcamel, hcapital, by decide, hisname, hfound' hcapital⟩, ⟨hbrand, hcustom _ hbrand⟩,
    by decide, by decide⟩

end PageTree.PropertyName
