import PageTree.Node.Visit
import PageTree.Style.Declaration

/-! # Style rules

In classes mode every element without an explicit class gets the class generated from its key, and a
rule for that class holds its declarations. **`Markup.rules`** collects the rules of a forest in the
order of its elements, one for each key; two keys with the same class are a clash. -/

namespace PageTree.Markup

/-- The explicit class of a node, unless it is blank. -/
def explicitClass? (node : Node) : Option String :=
  (node.props.bind Props.className).filter fun c => !Text.isBlankText c

/-- The style of a node with its position in it. A position adds nothing to a style that sets
nothing. -/
def effectiveStyle? (node : Node) : Option Style :=
  node.props.bind fun props =>
    if props.style.isEmpty then none
    else match props.position with
      | some p => some (props.style.withTranslate p.x p.y)
      | none => some props.style

/-- The declarations of a node. -/
def declarations (node : Node) : List Declaration :=
  match effectiveStyle? node with
  | some style => style.declarations
  | none => []

/-- The elements of a forest that are written: those that are not below a text or a self-closing
element, a node before its children. -/
def elements (forest : Forest) : List Node :=
  (Forest.visited (fun node => node.kind == .container) forest).filter fun node =>
    node.kind != .text

/-- A rule: a class and what is declared for it. -/
structure Rule where
  /-- The class. -/
  className : String
  /-- Its declarations. -/
  declarations : List Declaration
  deriving DecidableEq, Repr

/-- Two different keys with the same generated class. -/
structure ClassClash where
  /-- The class. -/
  className : String
  /-- The key that had it first. -/
  first : Key
  /-- The other key. -/
  second : Key
  deriving DecidableEq, Repr

/-- The rules so far, and the keys that the classes so far are generated from. -/
structure RuleTable where
  /-- The generated classes with their keys. -/
  owners : List (String × Key) := []
  /-- The rules. -/
  rules : List Rule := []

/-- Takes an element into account. An explicit class makes no rule, and of several elements with one
key the first makes the rule; an element that declares nothing makes none. -/
def RuleTable.add (table : RuleTable) (node : Node) : Except ClassClash RuleTable :=
  if (explicitClass? node).isSome then .ok table
  else
    let className := node.key.className
    match table.owners.lookup className with
    | some owner =>
      if owner = node.key then .ok table else .error ⟨className, owner, node.key⟩
    | none =>
      let declarations := declarations node
      .ok {
        owners := table.owners ++ [(className, node.key)]
        rules := if declarations.isEmpty then table.rules
          else table.rules ++ [⟨className, declarations⟩] }

/-- The rules of a forest. -/
def rules (forest : Forest) : Except ClassClash (List Rule) :=
  ((elements forest).foldlM RuleTable.add {}).map RuleTable.rules

end PageTree.Markup
