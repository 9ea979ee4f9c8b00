import PageTree.Proofs.Markup.MergedPage

/-! # The style attribute in both dialects

In inline mode the style of an element is a line of declarations in one dialect and an object
literal in the other. A declaration and an entry of the literal may stand for one entry of the style
(**`Style.StandForOne`**). Which values are passed over is decided differently on the two ways, but
the same are (**`Style.isSome_declaration?`**). Main statement: `Markup.style_attributes_agree`, the
literal is read back as one entry for each declaration, in the same order, and an element has a
style attribute in both dialects or in none. -/

namespace PageTree

open ObjectLiteral

namespace Style

/-- A declaration and an entry of an object literal that stand for one entry of a style: the
hyphenated name with the text of the value, and the camel-case name with the number's text or the
trimmed text. -/
def StandForOne (d : Declaration) (e : ObjectLiteral.Entry) : Prop :=
  ∃ entry : String × StyleValue, declaration? entry = some d ∧
    e = (PropertyName.camelCase entry.1, entry.2.shown)

/-- An entry gives a declaration exactly when its value can be written. -/
theorem isSome_declaration? (entry : String × StyleValue) :
    (declaration? entry).isSome = entry.2.isValid := by
  rw [declaration?, Option.isSome_map, StyleValue.isSome_cssText?]

/-- The entries that are written are those that give a declaration. -/
theorem written_eq (s : Style) :
    s.written = s.entries.filter fun entry => (declaration? entry).isSome := by
  rw [written]
  congr 1
  funext entry
  exact (isSome_declaration? entry).symm

/-- The declarations and the entries of the object literal stand for the same entries, in the same
order. -/
theorem forall₂_declarations_shownEntries (s : Style) :
    List.Forall₂ StandForOne s.declarations s.shownEntries := by
  rw [declarations_eq, shownEntries, List.forall₂_map_left_iff, List.forall₂_map_right_iff,
    List.forall₂_same]
  intro entry hentry
  have hvalid : entry.2.isValid = true := (List.mem_filter.1 hentry).2
  refine ⟨entry, ?_, rfl⟩
  rw [declaration?, StyleValue.cssText?_eq hvalid]
  rfl

/-- An object literal by itself is read back as a whole. -/
theorem read?_objectText_eq (s : Style) :
    ObjectLiteral.read? s.objectText.toList = some (s.shownEntries, []) := by
  have hread := read?_objectText s []
  rwa [List.append_nil] at hread

end Style

namespace Markup

/-- **The style attributes of the two dialects agree.** The object literal of a style is read back,
by its grammar and to its end, as one entry for each entry of the style that gives a declaration, in
the order of the style: its camel-case name with the number's text or the trimmed text. In inline
mode an element has no style attribute in either dialect, and then nothing is declared for it, or it
has one in both: in one the line of its declarations, in the other a literal that is read back as
entries that stand, one by one and in the same order, for what the declarations stand for. -/
theorem style_attributes_agree :
    (∀ style : Style,
      let given := style.entries.filter fun entry => (Style.declaration? entry).isSome
      let entries := given.map fun entry => (PropertyName.camelCase entry.1, entry.2.shown)
      ObjectLiteral.read? style.objectText.toList = some (entries, []) ∧
        List.Forall₂ Style.StandForOne style.declarations entries) ∧
    ∀ (options : Options) (node : Node),
      let html := styleValue? { options with styleMode := .inline, dialect := .html } node
      let jsx := styleValue? { options with styleMode := .inline, dialect := .jsx } node
      (html = none ∧ jsx = none ∧ declarations node = []) ∨
      ∃ literal entries, html = some (.quoted (" ".intercalate
          ((declarations node).map declarationText))) ∧
        jsx = some (.object literal) ∧ ObjectLiteral.read? literal.toList = some (entries, []) ∧
        entries ≠ [] ∧ List.Forall₂ Style.StandForOne (declarations node) entries := by
  refine ⟨fun style => ?_, fun options node => ?_⟩
  · have hentries := Style.written_eq style
    have hshown := Style.forall₂_declarations_shownEntries style
    have hread := Style.read?_objectText_eq style
    rw [Style.shownEntries, hentries] at hshown hread
    exact ⟨hread, hshown⟩
  · -- either nothing is written in both dialects, or one and the same style is
    rcases writtenStyle_cases node with ⟨hnothing, hnone⟩ | ⟨s, hne, hwritten, hvalue⟩
    · exact .inl ⟨hnone _, hnone _, (Prod.mk.inj hnothing).1⟩
    · obtain ⟨hdeclarations, -⟩ := Prod.mk.inj hwritten
      refine .inr ⟨s.objectText, s.shownEntries, ?_, hvalue _, Style.read?_objectText_eq s, ?_, ?_⟩
      · rw [hdeclarations]
        exact hvalue _
      · rw [objectEntries_eq, Ne, List.map_eq_nil_iff] at hne
        rwa [Style.shownEntries, Ne, List.map_eq_nil_iff]
      · rw [hdeclarations]
        exact Style.forall₂_declarations_shownEntries s

end Markup

end PageTree
