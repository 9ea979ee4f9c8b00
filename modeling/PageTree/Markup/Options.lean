import PageTree.Json.Record

/-! # Markup options

Where styles go, which attribute dialect is written, and how lines are indented. -/

namespace PageTree.Markup

/-- Where the styles of elements go. -/
inductive StyleMode where
  /-- Into a `style` attribute only. -/
  | inline
  /-- Into a rule for a generated class as well. -/
  | classes
  deriving DecidableEq, Repr

/-- How attributes are written. -/
inductive Dialect where
  /-- As in plain HTML. -/
  | html
  /-- As in JSX: another name for the class, and object literals for inline styles. -/
  | jsx
  deriving DecidableEq, Repr

/-- Options for markup. The indentation widths are 64-bit words. -/
structure Options where
  /-- Spaces before every line. -/
  baseIndent : UInt64 := 0
  /-- More spaces per nesting level. -/
  indentStep : UInt64 := 2
  /-- Where styles go. -/
  styleMode : StyleMode := .inline
  /-- How attributes are written. -/
  dialect : Dialect := .html
  /-- Whether the style sheet is part of a page in classes mode. -/
  styleSheet : Bool := true
  deriving DecidableEq, Repr

/-- The name of the attribute that holds the class. -/
def Dialect.classAttribute : Dialect → String
  | .html => "class"
  | .jsx => "className"

/-! ## Words -/

/-- The word for a style mode. -/
def StyleMode.word : StyleMode → String
  | .inline => "inline"
  | .classes => "classname"

/-- The words that name a style mode. -/
def StyleMode.words : List (String × StyleMode) := [("inline", .inline), ("classname", .classes)]

/-- The word for a dialect. -/
def Dialect.word : Dialect → String
  | .html => "default"
  | .jsx => "jsx"

/-- The words that name a dialect in the data notation. -/
def Dialect.dataWords : List (String × Dialect) :=
  [("default", .html), ("jsx", .jsx), ("react", .jsx)]

/-- The words that name a dialect on the command line. -/
def Dialect.commandWords : List (String × Dialect) :=
  [("default", .html), ("html", .html), ("jsx", .jsx), ("react", .jsx)]

/-- A word that names no style mode or no dialect. -/
inductive UnknownWord where
  /-- No style mode has this name. -/
  | styleMode (word : String)
  /-- No dialect has this name. -/
  | dialect (word : String)
  deriving DecidableEq, Repr

/-- The message for an unknown word. -/
def UnknownWord.message : UnknownWord → String
  | .styleMode word => "Unknown style mode: " ++ word ++ ". Use: inline or classname"
  | .dialect word => "Unknown attribute dialect: " ++ word ++ ". Use: default or jsx"

/-- The style mode that a word names. -/
def StyleMode.ofWord (word : String) : Except UnknownWord StyleMode :=
  match StyleMode.words.lookup word with
  | some mode => .ok mode
  | none => .error (.styleMode word)

/-- The dialect that a word on the command line names. -/
def Dialect.ofWord (word : String) : Except UnknownWord Dialect :=
  match Dialect.commandWords.lookup word with
  | some dialect => .ok dialect
  | none => .error (.dialect word)

/-! ## Data notation -/

/-- The fields of options, in the order in which they are written. -/
def Options.shape : List RecordField :=
  [.optional "baseIndentOffset", .optional "indentStep", .optional "styleMode",
    .optional "attributeDialect", .optional "styleBlock"]

/-- All options are written. -/
def Options.toJson (o : Options) : Json :=
  .object [("baseIndentOffset", .natural o.baseIndent), ("indentStep", .natural o.indentStep),
    ("styleMode", .text o.styleMode.word), ("attributeDialect", .text o.dialect.word),
    ("styleBlock", .bool o.styleSheet)]

/-- Reads options; those missing have their defaults. -/
def Options.read? : Nat → Json → Option Options
  | 0, _ => none
  | room + 1, json => do
    let default : Options := {}
    match ← json.fields? Options.shape with
    | [baseIndent, indentStep, styleMode, dialect, styleSheet] =>
      some {
        baseIndent := ← Json.withDefault default.baseIndent Json.natural? baseIndent
        indentStep := ← Json.withDefault default.indentStep Json.natural? indentStep
        styleMode := ←
          Json.withDefault default.styleMode (Json.word? StyleMode.words .null room) styleMode
        dialect := ←
          Json.withDefault default.dialect (Json.word? Dialect.dataWords .null room) dialect
        styleSheet := ← Json.withDefault default.styleSheet Json.bool? styleSheet }
    | _ => none

/-- Reads options with all the room there is. -/
def Options.ofJson? (json : Json) : Option Options := Options.read? Json.depthLimit json

end PageTree.Markup
