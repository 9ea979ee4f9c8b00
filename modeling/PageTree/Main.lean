import PageTree.Command.Program

/-! # The executable

Carries out the invocation given by the arguments on the real file system. A command that fails
exits with 1 after its message, and arguments that cannot be read with 2. -/

namespace PageTree.Command

/-- Whether an action succeeds. -/
def succeeds (action : IO Unit) : IO Bool := do
  try
    action
    return true
  catch _ => return false

/-- The host on the real file system. -/
def systemHost : IO (Host IO) := do
  let cwd ← IO.currentDir
  return {
    workingDirectory := cwd.toString
    isPresent := fun path => (cwd / path).pathExists
    readText := fun path => do
      try
        return some (← IO.FS.readFile (cwd / path))
      catch _ => return none
    ensureDirectory := fun path => succeeds (IO.FS.createDirAll (cwd / path))
    writeText := fun path text => succeeds (IO.FS.writeFile (cwd / path) text)
    print := IO.print
    notify := IO.eprint }

end PageTree.Command

open PageTree.Command in
/-- Runs the program. -/
def main (arguments : List String) : IO UInt32 := do
  match Invocation.ofArguments? arguments with
  | none =>
    IO.eprint helpText
    return 2
  | some invocation =>
    match ← (run (← systemHost) invocation).run with
    | .ok () => return 0
    | .error failure =>
      IO.eprint ("\nError: " ++ failure.message ++ "\n\n")
      return 1
