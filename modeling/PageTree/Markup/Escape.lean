/-! # Escaping

The characters that mean something in markup are written as entities. **`Markup.escapeChars`**
replaces one kind of character after another in the whole text; **`Markup.substituteChars`** goes
through the text once. Main statement: `escapeChars_eq_substituteChars`, the two agree, because the
ampersand, which every entity starts with, is replaced first. -/

namespace PageTree.Markup

/-- Every occurrence of a character replaced by a text. -/
def replaceChar (c : Char) (text cs : List Char) : List Char :=
  cs.flatMap fun d => if d = c then text else [d]

/-- Replacing a character goes part by part. -/
theorem replaceChar_append (c : Char) (text cs ds : List Char) :
    replaceChar c text (cs ++ ds) = replaceChar c text cs ++ replaceChar c text ds := by
  simp [replaceChar]

/-- The characters with an entity, each with its entity, the ampersand first; a quote has one only
inside an attribute. -/
def entities (quotes : Bool) : List (Char × List Char) :=
  [('&', "&amp;".toList), ('<', "&lt;".toList), ('>', "&gt;".toList)] ++
    if quotes then [('"', "&quot;".toList)] else []

/-- A text with its special characters replaced by entities, one kind after another. -/
def escapeChars (quotes : Bool) (cs : List Char) : List Char :=
  (entities quotes).foldl (fun cs entity => replaceChar entity.1 entity.2 cs) cs

/-- What stands for one character. -/
def substitute (quotes : Bool) (c : Char) : List Char := ((entities quotes).lookup c).getD [c]

/-- A text with every special character replaced by its entity, in one pass. -/
def substituteChars (quotes : Bool) (cs : List Char) : List Char := cs.flatMap (substitute quotes)

/-- Nothing is escaped to nothing. -/
@[simp] theorem escapeChars_nil (quotes : Bool) : escapeChars quotes [] = [] := by
  cases quotes <;> rfl

/-- A text is escaped part by part. -/
theorem escapeChars_append (quotes : Bool) (cs ds : List Char) :
    escapeChars quotes (cs ++ ds) = escapeChars quotes cs ++ escapeChars quotes ds := by
  cases quotes <;> simp [escapeChars, entities, replaceChar_append]

/-- A single character is escaped to what is substituted for it. -/
theorem escapeChars_singleton (quotes : Bool) (c : Char) :
    escapeChars quotes [c] = substitute quotes c := by
  by_cases h : c = '&'
  · subst h; cases quotes <;> decide
  by_cases h : c = '<'
  · subst h; cases quotes <;> decide
  by_cases h : c = '>'
  · subst h; cases quotes <;> decide
  by_cases h : c = '"'
  · subst h; cases quotes <;> decide
  cases quotes <;>
    simp_all [escapeChars, entities, replaceChar, substitute, List.lookup_cons, beq_false_of_ne]

/-- Replacing one kind of character after another is the same as going through the text once. -/
theorem escapeChars_eq_substituteChars (quotes : Bool) (cs : List Char) :
    escapeChars quotes cs = substituteChars quotes cs := by
  induction cs with
  | nil => simp [substituteChars]
  | cons c cs ih =>
    rw [← List.singleton_append, escapeChars_append, escapeChars_singleton, ih]
    simp [substituteChars]

/-- A text as it is written between tags. -/
def escapeText (s : String) : String := String.ofList (escapeChars false s.toList)

/-- A text as it is written in the value of an attribute. -/
def escapeAttribute (s : String) : String := String.ofList (escapeChars true s.toList)

end PageTree.Markup
