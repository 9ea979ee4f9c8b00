import PageTree.Markup.Escape
import PageTree.Markup.Options
import PageTree.Markup.Rule

/-! # Pages

The markup of a forest. **`Markup.nodeText`** writes a node and **`Markup.forestText`** the nodes of
a forest, each tag and text on a line of its own, indented by its depth; **`Markup.sheetText`**
writes rules as a `<style>` element. **`Markup.page`** checks a forest, then writes the style sheet
where the options ask for one, and the forest after it. -/

namespace PageTree.Markup

/-- Why a forest has no markup. -/
inductive PageError where
  /-- A node cannot be written. -/
  | invalidNode (fault : NodeFault)
  /-- Two keys have the same generated class. -/
  | classClash (clash : ClassClash)
  deriving DecidableEq, Repr

/-- The message of an error. -/
def PageError.message : PageError → String
  | .invalidNode fault => "Invalid node: " ++ fault.message
  | .classClash clash =>
    "Keys " ++ clash.first.toText ++ " and " ++ clash.second.toText ++ " both generate class '" ++
      clash.className ++ "'"

/-! ## Lines -/

/-- The spaces in front of a line, counted in 64-bit words. -/
def indentWidth (options : Options) (depth : Nat) : UInt64 :=
  options.baseIndent + UInt64.ofNat depth * options.indentStep

/-- A line at a nesting depth. -/
def line (options : Options) (depth : Nat) (text : String) : String :=
  String.ofList (List.replicate (indentWidth options depth).toNat ' ') ++ text ++ "\n"

/-! ## Tags -/

/-- What is written for an attribute. -/
inductive AttributeValue where
  /-- A text between quotes. -/
  | quoted (text : String)
  /-- An object literal between braces. -/
  | object (text : String)
  deriving DecidableEq, Repr

/-- The class of a node: the explicit one, otherwise in classes mode the generated one. -/
def class? (options : Options) (node : Node) : Option String :=
  match explicitClass? node, options.styleMode with
  | some c, _ => some c
  | none, .classes => some node.key.className
  | none, .inline => none

/-- What the `style` attribute of a node holds; a style without a value that can be written has
none. -/
def styleValue? (options : Options) (node : Node) : Option AttributeValue :=
  (effectiveStyle? node).bind fun style =>
    if style.hasValid then
      match options.styleMode, options.dialect with
      | .inline, .jsx => some (.object style.objectText)
      | _, _ => some (.quoted style.inlineText)
    else none

/-- The attributes of a node in the order in which they are written: the identifier, the class, the
free attributes, the style. -/
def attributes (options : Options) (node : Node) : List (String × AttributeValue) :=
  let props := node.props.getD {}
  (props.id.map fun id => ("id", .quoted id)).toList ++
    ((class? options node).map fun c => (options.dialect.classAttribute, .quoted c)).toList ++
    props.attributes.map (fun a => (a.name, .quoted a.value)) ++
    ((styleValue? options node).map fun value => ("style", value)).toList

/-- The text of an attribute, with the space in front of it. -/
def attributeText : String × AttributeValue → String
  | (name, .quoted text) => " " ++ name ++ "=\"" ++ escapeAttribute text ++ "\""
  | (name, .object text) => " " ++ name ++ "=\x7b" ++ text ++ "\x7d"

/-- The opening tag of an element, which is its only tag if it is self-closing. -/
def openingTag (options : Options) (node : Node) : String :=
  "<" ++ node.tag ++ String.join ((attributes options node).map attributeText) ++
    if node.kind = .single then " />" else ">"

/-- The closing tag of an element. -/
def closingTag (tag : String) : String := "</" ++ tag ++ ">"

/-! ## Nodes -/

mutual

/-- The markup of a node at a nesting depth. A container without children is on one line, and the
children of others are one level deeper. -/
def nodeText (options : Options) (depth : Nat) : Node → String
  | { kind, key, tag, displayName, children, props, content } =>
    let node : Node := { kind, key, tag, displayName, children, props, content }
    match kind with
    | .text => line options depth (escapeText (content.getD ""))
    | .single => line options depth (openingTag options node)
    | .container =>
      if children.isEmpty then line options depth (openingTag options node ++ closingTag tag)
      else
        line options depth (openingTag options node) ++ forestText options (depth + 1) children ++
          line options depth (closingTag tag)

/-- The markup of a forest at a nesting depth. -/
def forestText (options : Options) (depth : Nat) : Forest → String
  | [] => ""
  | node :: forest => nodeText options depth node ++ forestText options depth forest

end

/-- An empty forest is written as nothing. -/
@[simp] theorem forestText_nil (options : Options) (depth : Nat) :
    forestText options depth [] = "" :=
  rfl

/-- The markup of forests side by side is their markup one after the other. -/
theorem forestText_append (options : Options) (depth : Nat) (f g : Forest) :
    forestText options depth (f ++ g) =
      forestText options depth f ++ forestText options depth g := by
  induction f with
  | nil => simp
  | cons node f ih => simp [forestText, ih, String.append_assoc]

/-! ## Style sheets and pages -/

/-- The lines of a rule. -/
def ruleText (options : Options) (rule : Rule) : String :=
  line options 1 ("." ++ rule.className ++ " \x7b") ++
    String.join (rule.declarations.map fun d => line options 2 (declarationText d)) ++
    line options 1 "\x7d"

/-- The style sheet that holds rules; there is none without a rule. -/
def sheetText (options : Options) (rules : List Rule) : String :=
  if rules.isEmpty then ""
  else
    line options 0 "<style>" ++ String.join (rules.map (ruleText options)) ++
      line options 0 "</style>"

/-- The style sheet of a forest, which is empty in inline mode. Whether the options ask for a style
sheet in pages does not matter here, nor whether the nodes can be written. -/
def styleSheet (options : Options) (forest : Forest) : Except PageError String :=
  match options.styleMode with
  | .inline => .ok ""
  | .classes => ((rules forest).map (sheetText options)).mapError .classClash

/-- The markup of a forest. -/
def page (options : Options) (forest : Forest) : Except PageError String :=
  match Forest.fault? forest with
  | some fault => .error (.invalidNode fault)
  | none =>
    (styleSheet options forest).map fun sheet =>
      (if options.styleSheet then sheet else "") ++ forestText options 0 forest

end PageTree.Markup
