import PageTree.Json.Parser
import PageTree.Json.Printer
import PageTree.Markup.Options
import PageTree.Node.Data

/-! # Configuration

The configuration of a directory: the options that markup is written with, and where it is written
to. It is kept as a data value in a file of the directory. -/

namespace PageTree.Command

/-- The configuration of a directory. -/
structure Config where
  /-- The options for markup; flags of the command override them. -/
  options : Markup.Options := {}
  /-- The directory for output. -/
  outDir : Option String := none
  deriving DecidableEq, Repr

namespace Config

/-- The name of the file. -/
def fileName : String := "pagecraft.config.json"

/-- The fields of a configuration. -/
def shape : List RecordField := [.optional "compilerOptions", .required "outDir"]

/-- A configuration is written without an output directory where it has none. -/
def toJson (config : Config) : Json :=
  .object (("compilerOptions", config.options.toJson) :: optionalEntry "outDir" .text config.outDir)

/-- Reads a configuration. -/
def read? : Nat → Json → Option Config
  | 0, _ => none
  | room + 1, json => do
    match ← json.fields? shape with
    | [options, outDir] =>
      some {
        options := ← Json.withDefault {} (Markup.Options.read? room) options
        outDir := ← Json.nullable Json.text? outDir }
    | _ => none

/-- Reads the text of a configuration file. -/
def ofText? (text : String) : Option Config := (Json.parse? text).bind (read? Json.depthLimit)

end Config

end PageTree.Command
