import PageTree.Command.Arguments
import PageTree.Command.Config
import PageTree.Command.Path
import PageTree.Layer.Renderer
import PageTree.Markup.Page

/-! # The program

What the commands do, said over the few things they ask of the system they run on, a **`Host`**.
**`Command.compile`** reads the configuration and the input, and writes markup to one file or prints
it; **`Command.init`** sets up a directory with a configuration and an example page;
**`Command.run`** carries out an invocation. -/

namespace PageTree.Command

/-- The system that a command runs on, in terms of its effects. -/
structure Host (m : Type → Type) where
  /-- The path of the working directory. -/
  workingDirectory : String
  /-- Whether there is something at a path. -/
  isPresent : String → m Bool
  /-- The text of a file, if it can be read. -/
  readText : String → m (Option String)
  /-- Makes a directory with all directories on the way to it; tells whether it is there then. -/
  ensureDirectory : String → m Bool
  /-- Writes a file anew; tells whether that succeeded. -/
  writeText : String → String → m Bool
  /-- Prints a text. -/
  print : String → m Unit
  /-- Tells the user a text, apart from what is printed. -/
  notify : String → m Unit

/-- Why a command fails. -/
inductive Failure where
  /-- The configuration cannot be read. -/
  | badConfig
  /-- There is no input file. -/
  | inputMissing (path : String)
  /-- The input file cannot be read. -/
  | inputUnreadable (path : String)
  /-- The input file holds no forest. -/
  | inputInvalid (path : String)
  /-- The forest has no markup. -/
  | page (error : Markup.PageError)
  /-- A file cannot be written. -/
  | writeFailed (path : String)
  deriving DecidableEq, Repr

/-- The message of a failure. -/
def Failure.message : Failure → String
  | .badConfig => "Invalid configuration: " ++ Config.fileName
  | .inputMissing path => "Input file does not exist: " ++ path
  | .inputUnreadable path => "Failed to read " ++ path
  | .inputInvalid path => "Failed to load " ++ path
  | .page error => error.message
  | .writeFailed path => "Failed to write " ++ path

variable {m : Type → Type} [Monad m]

/-- Writes a file, or fails. -/
def writeOrFail (host : Host m) (path text : String) : ExceptT Failure m Unit := do
  unless ← host.writeText path text do throw (.writeFailed path)

/-! ## Writing markup -/

/-- The configuration of the working directory, or the default one. -/
def loadConfig (host : Host m) : ExceptT Failure m Config := do
  let path := Path.join host.workingDirectory Config.fileName
  if ← host.isPresent path then
    match (← host.readText path).bind Config.ofText? with
    | some config => return config
    | none => throw .badConfig
  else return {}

/-- The options of a configuration, overridden by those given to the command. -/
def resolveOptions (arguments : CompileArguments) (config : Config) : Markup.Options :=
  { config.options with
    styleMode := arguments.styleMode.getD config.options.styleMode
    dialect := arguments.dialect.getD config.options.dialect
    indentStep := arguments.indentStep.getD config.options.indentStep
    baseIndent := arguments.baseIndent.getD config.options.baseIndent }

/-- Reads a list of things, or a single one. Everything in the value has to be readable, also what
is passed over. -/
def oneOrMore? {α : Type} (read : Nat → Json → Option α) (json : Json) : Option (List α) := do
  let json ← json.readable? Json.depthLimit
  (Json.list? read Json.depthLimit json).or ((read Json.depthLimit json).map fun a => [a])

/-- The forest that an input text holds, as nodes or as layers to be rendered. -/
def loadForest? (layers : Bool) (text : String) : Option Forest := do
  let json ← Json.parse? text
  if layers then (oneOrMore? Layer.read? json).map fun layers => (Renderer.renderAll {} layers).1
  else oneOrMore? (Node.read? .null) json

/-- The extension of files with markup of a dialect. -/
def extension : Markup.Dialect → String
  | .html => "html"
  | .jsx => "jsx"

/-- Where markup is written: the file given to the command, else the configured directory under the
name of the input; if neither is known it is printed. -/
def outputPath? (workingDirectory : String) (arguments : CompileArguments) (config : Config)
    (inputPath : String) (dialect : Markup.Dialect) : Option String :=
  match arguments.out with
  | some out => some (Path.join workingDirectory out)
  | none => do
    let name ← Path.fileName? inputPath
    let directory ← config.outDir
    let output := Path.join workingDirectory directory
    some (Path.join output (Path.withExtension name (extension dialect)))

/-- Writes the markup of an input file. Everything is checked before anything is written. -/
def compile (host : Host m) (arguments : CompileArguments) : ExceptT Failure m Unit := do
  let config ← loadConfig host
  let options := resolveOptions arguments config
  let inputPath := Path.join host.workingDirectory arguments.input
  unless ← host.isPresent inputPath do throw (.inputMissing inputPath)
  let some text ← host.readText inputPath | throw (.inputUnreadable inputPath)
  let some forest := loadForest? arguments.layers text | throw (.inputInvalid inputPath)
  match Markup.page options forest with
  | .error error => throw (.page error)
  | .ok markup =>
    match outputPath? host.workingDirectory arguments config inputPath options.dialect with
    | none => host.print markup
    | some path =>
      unless ← host.ensureDirectory (Path.parent path) do throw (.writeFailed path)
      writeOrFail host path markup
      host.notify ("  ✓ " ++ arguments.input ++ " → " ++ path ++ "\n")

/-! ## Setting up a directory -/

/-- The name of the example page. -/
def exampleName : String := "page.json"

/-- The example page. -/
def examplePage : Forest :=
  [((Node.container "section" (.number 0)).withDisplayName "Hero"
    |>.withStyle "padding" (.number (Double.ofNat 24))
    |>.withStyle "backgroundColor" (.text "#3366FF")
    |>.withChildren
      [(Node.single "img" (.number 1)).withAttribute "src" "logo.png"
          |>.withAttribute "alt" "Logo",
        (Node.container "h1" (.number 2)).withStyle "color" (.text "white")
          |>.withChildren [Node.text "Hello, Pagecraft" (.number 3)]])]

/-- Sets up the working directory: an example page unless there is one, and a configuration. A
configuration that is there stays, unless the command is told otherwise. -/
def init (host : Host m) (arguments : InitArguments) : ExceptT Failure m Unit := do
  let configPath := Path.join host.workingDirectory Config.fileName
  if (← host.isPresent configPath) && !arguments.force then
    host.print ("⚠️ " ++ Config.fileName ++ " already exists\nUse --force to overwrite\n")
  else
    host.print "📝 Initializing Pagecraft project...\n"
    let examplePath := Path.join host.workingDirectory exampleName
    unless ← host.isPresent examplePath do
      writeOrFail host examplePath (Json.array (Forest.toJson examplePage)).indented
      host.print ("  ✓ Created " ++ exampleName ++ "\n")
    let config : Config := {
      options := { styleMode := arguments.styleMode, dialect := arguments.dialect }
      outDir := some "dist" }
    writeOrFail host configPath config.toJson.indented
    host.print ("  ✓ Created " ++ Config.fileName ++ "\n\n" ++
      "✅ Project initialized!\n\nNext steps:\n" ++
      "  1. Edit " ++ exampleName ++ "\n  2. Run: pagecraft compile " ++ exampleName ++ "\n" ++
      "  3. Check output in dist/\n")

/-! ## Running -/

/-- The name and version of the program. -/
def versionText : String := "pagecraft 0.1.0\n"

/-- How the program is used. -/
def helpText : String :=
  "Usage: pagecraft <COMMAND>\n\nCommands:\n" ++
    "  init     Write a default pagecraft.config.json and an example page\n" ++
    "  compile  Compile a node forest (JSON) to markup\n"

/-- Carries out an invocation. -/
def run (host : Host m) : Invocation → ExceptT Failure m Unit
  | .version => host.print versionText
  | .help => host.print helpText
  | .init arguments => init host arguments
  | .compile arguments => compile host arguments

end PageTree.Command
