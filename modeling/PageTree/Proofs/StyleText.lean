import PageTree.Proofs.ObjectLiteral
import PageTree.Proofs.PropertyName

/-! # The texts of a style

How the declarations of a style and its object literal go together. The entries whose values can be
written are the same in both, and what a declaration says follows from what the object literal shows
and from the hyphenated name (**`Style.declarations_eq`**). Two names may share the notation of
object literals and differ in that of declarations, but then they have the same letters. Main
statement: `Style.declarations_eq_of_texts_eq`, styles with the same object literal and the same
inline text have the same declarations in the same order. -/

namespace PageTree

open ObjectLiteral

/-! ## Values -/

namespace ObjectLiteral

/-- The value as the text of a declaration. -/
def Value.cssText (property : String) : Value → String
  | .number digits => if unitlessProperties.contains property then digits else digits ++ "px"
  | .text s =>
    match (Double.ofText? s).filter Double.isFinite with
    | some x => StyleValue.numberText property x
    | none => s

/-- The value as it stands in an object literal. -/
def Value.literal : Value → String
  | .number digits => digits
  | .text s => String.ofList (Quoted.literal s.toList)

end ObjectLiteral

/-- What a declaration says follows from what the object literal shows. -/
theorem StyleValue.cssText?_eq {value : StyleValue} (h : value.isValid = true) (property : String) :
    value.cssText? property = some (value.shown.cssText property) := by
  unfold cssText?
  rw [if_pos h]
  cases value with
  | unset => contradiction
  | number x =>
    have hfinite : x.isFinite = true := h
    rw [number?, if_pos hfinite]
    rfl
  | text s =>
    rw [number?, shown, Value.cssText]
    cases (Double.ofText? (Text.trim s)).filter Double.isFinite with
    | none => rfl
    | some x => rfl

/-- A value that cannot be written has no text. -/
theorem StyleValue.cssText?_eq_none {value : StyleValue} (h : ¬value.isValid = true)
    (property : String) : value.cssText? property = none :=
  if_neg h

/-- A value has a text exactly when it is valid. -/
theorem StyleValue.isSome_cssText? (value : StyleValue) (property : String) :
    (value.cssText? property).isSome = value.isValid := by
  by_cases hvalid : value.isValid = true
  · rw [cssText?_eq hvalid, Option.isSome_some, hvalid]
  · rw [cssText?_eq_none hvalid, Option.isSome_none, eq_false_of_ne_true hvalid]

/-- What is shown of a valid value is written as in an object literal. -/
theorem StyleValue.literal_shown {value : StyleValue} (h : value.isValid = true) :
    value.shown.literal = Style.objectValue value := by
  cases value with
  | unset => contradiction
  | number x => rfl
  | text s => rfl

namespace Style

variable {s t : Style}

/-! ## Entries -/

/-- The declaration of an entry whose value can be written. -/
def writtenDeclaration (entry : String × StyleValue) : Declaration :=
  (PropertyName.hyphenated entry.1,
    entry.2.shown.cssText (PropertyName.hyphenated entry.1))

/-- The declarations are those of the entries whose values can be written. -/
theorem declarations_eq (s : Style) : s.declarations = s.written.map writtenDeclaration := by
  rw [declarations, written]
  induction s.entries with
  | nil => rfl
  | cons entry entries ih =>
    by_cases hvalid : entry.2.isValid = true
    · have hdeclaration : declaration? entry = some (writtenDeclaration entry) := by
        rw [declaration?, StyleValue.cssText?_eq hvalid]
        rfl
      rw [List.filterMap_cons_some hdeclaration, ih, List.filter_cons, if_pos hvalid, List.map_cons]
    · have hdeclaration : declaration? entry = none := by
        rw [declaration?, StyleValue.cssText?_eq_none hvalid]
        rfl
      rw [List.filterMap_cons_none hdeclaration, ih, List.filter_cons, if_neg hvalid]

/-- A style has a value that can be written exactly when an entry is written. -/
theorem hasValid_iff : s.hasValid = true ↔ s.written ≠ [] := by
  simp [hasValid, written, List.any_eq_true, List.filter_eq_nil_iff]

/-- The entries of the object literal as texts. -/
theorem objectEntries_eq_map_shownEntries (s : Style) :
    s.objectEntries = s.shownEntries.map fun entry =>
      (if isIdentifier entry.1.toList then entry.1
        else String.ofList (Quoted.literal entry.1.toList)) ++ ": " ++ entry.2.literal := by
  rw [objectEntries_eq, shownEntries, List.map_map]
  refine List.map_congr_left fun entry hentry => ?_
  have hvalid : entry.2.isValid = true := (List.mem_filter.1 hentry).2
  rw [entryText, ← StyleValue.literal_shown hvalid]
  rfl

/-! ## Inline texts -/

/-- What follows the first declaration on a line. -/
def furtherText : List Declaration → String
  | [] => ""
  | d :: ds => " " ++ (declarationText d ++ furtherText ds)

/-- The declarations on one line, the first one in front. -/
theorem intercalate_declarationText (d : Declaration) (ds : List Declaration) :
    " ".intercalate (declarationText d :: ds.map declarationText) =
      declarationText d ++ furtherText ds := by
  induction ds generalizing d with
  | nil => simp [furtherText]
  | cons e ds ih =>
    rw [List.map_cons, String.intercalate_cons_cons, ih, furtherText, String.append_assoc]

/-- Two names with as many letters are equal if they are so with what comes after their colons. -/
theorem eq_of_append_colon_eq {name other rest rest' : List Char}
    (hletters : PropertyName.letterCount name = PropertyName.letterCount other)
    (h : name ++ ':' :: rest = other ++ ':' :: rest') : name = other ∧ rest = rest' := by
  -- if one name went on behind the other, it would have the colon as a further letter
  have hend : ∀ {name other more rest rest' : List Char}, other = name ++ more →
      ':' :: rest = more ++ ':' :: rest' →
      PropertyName.letterCount name = PropertyName.letterCount other → more = [] := by
    intro name other more rest rest' hother hrest hcount
    cases more with
    | nil => rfl
    | cons c more =>
      obtain ⟨rfl, -⟩ := List.cons.inj hrest
      rw [hother, PropertyName.letterCount_append, PropertyName.letterCount_cons,
        if_neg (by decide)] at hcount
      omega
  rcases List.append_eq_append_iff.1 h with ⟨more, hother, hrest⟩ | ⟨more, hname, hrest⟩
  · obtain rfl := hend hother hrest hletters
    rw [List.append_nil] at hother
    exact ⟨hother.symm, (List.cons.inj hrest).2⟩
  · obtain rfl := hend hname hrest hletters.symm
    rw [List.append_nil] at hname
    exact ⟨hname, (List.cons.inj hrest).2.symm⟩

/-- Entries that are shown alike and have the same text have the same declaration. -/
theorem writtenDeclaration_append_inj {entry other : String × StyleValue} {rest rest' : String}
    (hshown : shownEntry entry = shownEntry other)
    (h : declarationText (writtenDeclaration entry) ++ rest =
      declarationText (writtenDeclaration other) ++ rest') :
    writtenDeclaration entry = writtenDeclaration other ∧ rest = rest' := by
  -- the names end in front of their colons, and from there on the texts are the same
  obtain ⟨hcamel, hvalue⟩ := Prod.mk.inj hshown
  have hletters := PropertyName.letterCount_hyphenated_eq hcamel
  have hchars := congrArg String.toList h
  simp only [declarationText, writtenDeclaration, String.toList_append, List.append_assoc] at hchars
  obtain ⟨hname, hrest⟩ := eq_of_append_colon_eq hletters hchars
  have hproperty := String.toList_inj.1 hname
  rw [hproperty, hvalue] at hrest
  refine ⟨?_, ?_⟩
  · rw [writtenDeclaration, writtenDeclaration, hproperty, hvalue]
  · have htail := List.append_cancel_left (List.cons.inj hrest).2
    have hends := List.append_cancel_left htail
    have hsemicolon : ";".toList ++ rest.toList = ";".toList ++ rest'.toList := hends
    exact String.toList_inj.1 (List.append_cancel_left hsemicolon)

/-- Entries that are shown alike and whose texts are the same have the same declarations. -/
theorem map_writtenDeclaration_eq {entries others : List (String × StyleValue)}
    (hshown : entries.map shownEntry = others.map shownEntry)
    (h : furtherText (entries.map writtenDeclaration) =
      furtherText (others.map writtenDeclaration)) :
    entries.map writtenDeclaration = others.map writtenDeclaration := by
  induction entries generalizing others with
  | nil =>
    rw [List.map_nil, eq_comm, List.map_eq_nil_iff] at hshown
    rw [hshown]
  | cons entry entries ih =>
    cases others with
    | nil => contradiction
    | cons other others =>
      obtain ⟨hfirst, hothers⟩ := List.cons.inj hshown
      have hline : declarationText (writtenDeclaration entry) ++
            furtherText (entries.map writtenDeclaration) =
          declarationText (writtenDeclaration other) ++
            furtherText (others.map writtenDeclaration) :=
        String.append_right_inj _ |>.1 h
      obtain ⟨hdeclaration, hrest⟩ := writtenDeclaration_append_inj hfirst hline
      rw [List.map_cons, List.map_cons, hdeclaration, ih hothers hrest]

/-- **Styles with the same texts have the same declarations.** -/
theorem declarations_eq_of_texts_eq (hshown : s.shownEntries = t.shownEntries)
    (hinline : s.inlineText = t.inlineText) : s.declarations = t.declarations := by
  rw [inlineText, inlineText, declarations_eq, declarations_eq] at hinline
  rw [declarations_eq, declarations_eq]
  -- the first declaration has no space in front of it, which is all that sets it apart
  refine map_writtenDeclaration_eq hshown ?_
  have hlength := congrArg List.length hshown
  rw [shownEntries, shownEntries, List.length_map, List.length_map] at hlength
  cases hs : s.written with
  | nil =>
    rw [hs, List.length_nil, eq_comm, List.length_eq_zero_iff] at hlength
    rw [hlength]
  | cons entry entries =>
    cases ht : t.written with
    | nil =>
      rw [hs, ht] at hlength
      contradiction
    | cons other others =>
      rw [hs, ht, List.map_cons, List.map_cons, List.map_cons, List.map_cons,
        intercalate_declarationText, intercalate_declarationText] at hinline
      rw [List.map_cons, List.map_cons, furtherText, furtherText, hinline]

end Style

end PageTree
