import PageTree.Double
import PageTree.Text.Blank

/-! # Styles

The style of an element maps property names to values, in the order in which the names were first
set. **`Style.insert`** sets a value: a name that is there keeps its place. **`Style.agrees`**
compares styles as maps, without their order and with numeric equality of numbers; equality of
styles is finer. -/

namespace PageTree

/-- A style value as set by a form. -/
inductive StyleValue where
  /-- Cleared, or never set. -/
  | unset
  /-- A bare number. -/
  | number (value : Double)
  /-- A text; it may spell a number. -/
  | text (value : String)
  deriving DecidableEq, Repr

namespace StyleValue

/-- Whether a value can be written: a number must be finite and a text must not be blank. -/
def isValid : StyleValue → Bool
  | .unset => false
  | .number x => x.isFinite
  | .text s => !Text.isBlankText s

/-- Equality of values with numeric equality of numbers. -/
def agrees : StyleValue → StyleValue → Bool
  | .unset, .unset => true
  | .number x, .number y => x.agrees y
  | .text s, .text t => s == t
  | _, _ => false

end StyleValue

/-- A style: values under names that are all different, in the order of the names. -/
structure Style where
  /-- The names with their values. -/
  entries : List (String × StyleValue)
  /-- No name comes twice. -/
  nodup : (entries.map Prod.fst).Nodup
  deriving DecidableEq, Repr

namespace Style

/-- The style that sets nothing. -/
def empty : Style := ⟨[], List.nodup_nil⟩

instance : Inhabited Style := ⟨empty⟩

/-- Whether a style sets nothing. -/
def isEmpty (s : Style) : Bool := s.entries.isEmpty

/-- The value under a name. -/
def get? (s : Style) (name : String) : Option StyleValue := s.entries.lookup name

/-! ## Setting a value -/

/-- Sets the value of a name among entries: in its place if it is there, otherwise at the end. -/
def insertEntry (name : String) (value : StyleValue) :
    List (String × StyleValue) → List (String × StyleValue)
  | [] => [(name, value)]
  | entry :: entries =>
    if entry.1 = name then (name, value) :: entries else entry :: insertEntry name value entries

/-- The names after setting a value: the same ones, with the name at the end if it is new. -/
theorem map_fst_insertEntry (name : String) (value : StyleValue)
    (entries : List (String × StyleValue)) :
    (insertEntry name value entries).map Prod.fst =
      if name ∈ entries.map Prod.fst then entries.map Prod.fst
      else entries.map Prod.fst ++ [name] := by
  induction entries with
  | nil => simp [insertEntry]
  | cons entry entries ih =>
    by_cases h : entry.1 = name
    · simp [insertEntry, h]
    · have h' : name ≠ entry.1 := fun e => h e.symm
      simp only [insertEntry, h, if_false, List.map_cons, ih, List.mem_cons, h', false_or]
      split <;> simp

/-- Setting a value leaves every name set once. -/
theorem nodup_insertEntry {name : String} {value : StyleValue}
    {entries : List (String × StyleValue)}
    (h : (entries.map Prod.fst).Nodup) : ((insertEntry name value entries).map Prod.fst).Nodup := by
  rw [map_fst_insertEntry]
  split
  next => exact h
  next hname =>
    refine List.nodup_append.2 ⟨h, by simp, fun a ha b hb hab => hname ?_⟩
    rw [← List.mem_singleton.1 hb, ← hab]
    exact ha

/-- Sets the value of a name, which keeps its place if it is there. -/
def insert (s : Style) (name : String) (value : StyleValue) : Style :=
  ⟨insertEntry name value s.entries, nodup_insertEntry s.nodup⟩

/-- The style that results from setting values in turn. -/
def ofList (entries : List (String × StyleValue)) : Style :=
  entries.foldl (fun s entry => s.insert entry.1 entry.2) empty

/-! ## Comparison -/

/-- Equality of styles as maps: the same names, whatever their order, with agreeing values. -/
def agrees (s t : Style) : Bool :=
  s.entries.length == t.entries.length &&
    s.entries.all fun entry =>
      match t.get? entry.1 with
      | some value => entry.2.agrees value
      | none => false

end Style

end PageTree
