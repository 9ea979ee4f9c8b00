import PageTree.Markup.Options
import PageTree.Text.Digits

/-! # Command-line arguments

**`Invocation.ofArguments?`** reads the arguments of the program: a command and its options and
operands, in any order. An option with a value is written `--name value`, `--name=value`,
`-n value`, `-nvalue` or `-n=value`; flags of one letter may stand together; `--` ends the options;
an option comes at most once, and a value in an argument of its own does not start with a hyphen,
unless it is the hyphen alone.

**`Reading.ofArguments?`** takes the arguments of a command one after the other and looks at each as
it comes, so whether there is help or an error is decided by the first argument that asks for help
or cannot be taken. -/

namespace PageTree.Command

/-! ## Options and operands -/

/-- What an option does. -/
inductive OptionKind where
  /-- It asks for help. -/
  | help
  /-- It is there or not. -/
  | flag
  /-- It has a value, and only some texts are values of it. -/
  | value (accepts : String → Bool)

/-- An option that a command knows. -/
structure OptionSpec where
  /-- Its name, written behind two hyphens. -/
  name : String
  /-- Its letter, written behind one hyphen. -/
  letter : Option Char
  /-- What it does. -/
  kind : OptionKind

/-- What a command takes. -/
structure CommandSpec where
  /-- Its options. -/
  options : List OptionSpec
  /-- The greatest number of operands. -/
  operands : Nat

/-- The options and operands given to a command. -/
structure Given where
  /-- The options with their values, those without a value with none. -/
  options : List (String × Option String) := []
  /-- The other arguments, in their order. -/
  operands : List String := []

namespace Given

/-- The value of an option. -/
def value? (given : Given) (name : String) : Option String := (given.options.lookup name).join

/-- Whether an option is given. -/
def has (given : Given) (name : String) : Bool := (given.options.lookup name).isSome

/-- One more option, which must not be there yet. -/
def addOption? (given : Given) (name : String) (value : Option String) : Option Given :=
  if given.has name then none
  else some { given with options := given.options ++ [(name, value)] }

/-- One more operand, as long as there is a place for it. -/
def addOperand? (most : Nat) (given : Given) (operand : String) : Option Given :=
  if given.operands.length < most then
    some { given with operands := given.operands ++ [operand] }
  else none

end Given

/-- What the arguments taken so far come to. -/
inductive Reading where
  /-- They ask for help. -/
  | help
  /-- They give options and operands. -/
  | given (given : Given)
  /-- They end in an option whose value is to come in the next argument. -/
  | awaiting (option : OptionSpec) (given : Given)

namespace Reading

/-- Takes an option with the value given in the same argument. -/
def takeOption? (given : Given) (option : OptionSpec) (value : Option String) : Option Reading :=
  match option.kind, value with
  | .help, none => some .help
  | .flag, none => (given.addOption? option.name none).map .given
  | .value _, none => some (.awaiting option given)
  | .value accepts, some text =>
    if accepts text then (given.addOption? option.name (some text)).map .given else none
  | _, some _ => none

/-- Takes an argument behind two hyphens: a name, and a value behind the equals sign. -/
def takeLong? (spec : CommandSpec) (given : Given) (cs : List Char) : Option Reading := do
  let name := String.ofList (cs.takeWhile (· != '='))
  let option ← spec.options.find? fun option => option.name == name
  match cs.dropWhile (· != '=') with
  | _ :: value => takeOption? given option (some (String.ofList value))
  | [] => takeOption? given option none

/-- Takes the letters behind one hyphen: flags, and an option with a value at the end. -/
def takeLetters? (spec : CommandSpec) (given : Given) : List Char → Option Reading
  | [] => some (.given given)
  | c :: cs => do
    let option ← spec.options.find? fun option => option.letter == some c
    match option.kind, cs with
    | .value _, '=' :: value => takeOption? given option (some (String.ofList value))
    | .value _, _ :: _ => takeOption? given option (some (String.ofList cs))
    | _, _ =>
      match ← takeOption? given option none with
      | .given more => takeLetters? spec more cs
      | reading => some reading

/-- Whether an argument looks like an option; the hyphen alone does not. -/
def looksLikeOption (argument : String) : Bool :=
  match argument.toList with
  | '-' :: _ :: _ => true
  | _ => false

/-- Takes one argument, unless it is the one that ends the options. -/
def take? (spec : CommandSpec) (reading : Reading) (argument : String) : Option Reading :=
  match reading with
  | .help => some .help
  | .awaiting option before =>
    if looksLikeOption argument then none else takeOption? before option (some argument)
  | .given before =>
    match argument.toList with
    | '-' :: '-' :: name => takeLong? spec before name
    | '-' :: c :: cs => takeLetters? spec before (c :: cs)
    | _ => (before.addOperand? spec.operands argument).map .given

/-- Takes the arguments of a command; behind `--` all of them are operands. -/
def takeAll? (spec : CommandSpec) : Reading → List String → Option Reading
  | reading, [] => some reading
  | .given before, argument :: rest =>
    if argument == "--" then (rest.foldlM (Given.addOperand? spec.operands) before).map .given
    else (take? spec (.given before) argument).bind fun reading => takeAll? spec reading rest
  | reading, argument :: rest =>
    (take? spec reading argument).bind fun reading => takeAll? spec reading rest

/-- Reads the arguments of a command; none of its options may lack its value at the end. -/
def ofArguments? (spec : CommandSpec) (arguments : List String) : Option Reading :=
  (takeAll? spec (.given {}) arguments).filter fun
    | .awaiting _ _ => false
    | _ => true

end Reading

/-- Reads a natural that fits a word; a plus sign may stand in front. -/
def word? (text : String) : Option UInt64 :=
  let digits := match text.toList with
    | '+' :: digits => digits
    | digits => digits
  let n := Digits.value digits
  if !digits.isEmpty && digits.all Char.isDigit && n < 2 ^ 64 then some (UInt64.ofNat n) else none

/-- The value of an option, as it is read. -/
def Given.read? {α : Type} (given : Given) (name : String) (read : String → Option α) : Option α :=
  (given.value? name).bind read

/-! ## Commands -/

/-- What the command that sets up a directory is told. -/
structure InitArguments where
  /-- The style mode to write into the configuration. -/
  styleMode : Markup.StyleMode
  /-- The dialect to write into the configuration. -/
  dialect : Markup.Dialect
  /-- Whether to replace a configuration that is there. -/
  force : Bool
  deriving DecidableEq, Repr

/-- What the command that writes markup is told. -/
structure CompileArguments where
  /-- The input file. -/
  input : String
  /-- The style mode, unless the configuration decides. -/
  styleMode : Option Markup.StyleMode := none
  /-- The dialect, unless the configuration decides. -/
  dialect : Option Markup.Dialect := none
  /-- The indentation per level, unless the configuration decides. -/
  indentStep : Option UInt64 := none
  /-- The indentation of every line, unless the configuration decides. -/
  baseIndent : Option UInt64 := none
  /-- Whether the input holds layers instead of nodes. -/
  layers : Bool := false
  /-- The output file, unless the configuration decides. -/
  out : Option String := none
  deriving DecidableEq, Repr

/-- What the program is asked to do. -/
inductive Invocation where
  /-- To print its version. -/
  | version
  /-- To print how it is used. -/
  | help
  /-- To set up a directory. -/
  | init (arguments : InitArguments)
  /-- To write markup. -/
  | compile (arguments : CompileArguments)
  deriving DecidableEq, Repr

/-- The style mode named by a word. -/
def styleMode? (word : String) : Option Markup.StyleMode := (Markup.StyleMode.ofWord word).toOption

/-- The dialect named by a word. -/
def dialect? (word : String) : Option Markup.Dialect := (Markup.Dialect.ofWord word).toOption

/-- An option whose values are the texts that can be read. -/
def OptionSpec.reading {α : Type} (name : String) (letter : Option Char)
    (read : String → Option α) : OptionSpec :=
  ⟨name, letter, .value fun text => (read text).isSome⟩

/-- The option that asks for help. -/
def OptionSpec.help : OptionSpec := ⟨"help", some 'h', .help⟩

/-- What the command that sets up a directory takes. -/
def InitArguments.spec : CommandSpec where
  options :=
    [.reading "style-mode" none styleMode?, .reading "dialect" (some 'd') dialect?,
      ⟨"force", some 'f', .flag⟩, .help]
  operands := 0

/-- What the command that writes markup takes. -/
def CompileArguments.spec : CommandSpec where
  options :=
    [.reading "style-mode" none styleMode?, .reading "dialect" (some 'd') dialect?,
      .reading "indent-step" none word?, .reading "base-indent" none word?,
      ⟨"source", none, .flag⟩, .reading "out" (some 'o') some, .help]
  operands := 1

/-- The arguments of the command that sets up a directory. -/
def InitArguments.ofGiven (given : Given) : InitArguments where
  styleMode := (given.read? "style-mode" styleMode?).getD .inline
  dialect := (given.read? "dialect" dialect?).getD .html
  force := given.has "force"

/-- The arguments of the command that writes markup, which must name an input. -/
def CompileArguments.ofGiven? (given : Given) : Option CompileArguments :=
  given.operands.head?.map fun input => {
    input := input
    styleMode := given.read? "style-mode" styleMode?
    dialect := given.read? "dialect" dialect?
    indentStep := given.read? "indent-step" word?
    baseIndent := given.read? "base-indent" word?
    layers := given.has "source"
    out := given.value? "out" }

/-- The invocation that the arguments of a command come to. -/
def Invocation.ofReading? (read : Given → Option Invocation) : Reading → Option Invocation
  | .help => some .help
  | .given given => read given
  | .awaiting _ _ => none

/-- The commands that help can be asked for by name. -/
def helpTopics : List String := ["init", "compile", "help"]

/-- Reads the arguments of the program. -/
def Invocation.ofArguments? : List String → Option Invocation
  | [] => none
  | first :: rest =>
    if first == "init" then
      (Reading.ofArguments? InitArguments.spec rest).bind
        (ofReading? fun given => some (.init (.ofGiven given)))
    else if first == "compile" then
      (Reading.ofArguments? CompileArguments.spec rest).bind
        (ofReading? fun given => (CompileArguments.ofGiven? given).map .compile)
    else if first == "help" then
      match rest with
      | [] => some .help
      | [topic] => if helpTopics.contains topic then some .help else none
      | _ => none
    else if first == "--version" then some .version
    else if first == "--help" then some .help
    else
      match first.toList with
      | '-' :: 'V' :: _ => some .version
      | '-' :: 'h' :: _ => some .help
      | _ => none

end PageTree.Command
