import PageTree.Command.Program

/-! # Directories

A model of the directory that a command works in: its files, the directories made in it, and what
every system has around it. A **`Place`** is where a path leads, and a **`Directory`** says what is
there. **`Workspace.host`** is the host on such a directory, and **`Workspace.run`** carries out an
invocation there. -/

namespace PageTree.Command

/-! ## Places -/

/-- Where the way to a place starts. -/
inductive Origin where
  /-- At the directory, or so many levels above it. -/
  | above (levels : Nat)
  /-- At the root of the system. -/
  | root
  deriving DecidableEq, Repr

/-- A place in the file system, by the names on the way down to it. -/
structure Place where
  /-- Where the way starts. -/
  origin : Origin
  /-- The names on the way. -/
  names : List String := []
  deriving DecidableEq, Repr

namespace Place

/-- A place in the directory. -/
def inside (names : List String) : Place := { origin := .above 0, names := names }

/-- The place of the directory that holds what is at a place. The root holds itself. -/
def parent (place : Place) : Place :=
  match place.origin, place.names with
  | .above levels, [] => { origin := .above (levels + 1) }
  | .root, [] => place
  | _, names => { place with names := names.dropLast }

/-- The place of a name in the directory at a place. -/
def child (place : Place) (name : String) : Place := { place with names := place.names ++ [name] }

/-- Whether a place is further down than another one. -/
def isBelow (place above : Place) : Bool :=
  place.origin = above.origin && place.names != above.names && above.names.isPrefixOf place.names

end Place

/-! ## Contents -/

/-- The content of a directory, and of the places around it as far as it is known. -/
structure Directory where
  /-- The files. -/
  files : List (Place × String)
  /-- The directories that may hold no file. -/
  folders : List Place := []

namespace Directory

/-- A directory with files under the names of the ways to them. Around it is what every system has:
the null device, in which there is nothing to read, and the directory for temporary files. -/
def ofFiles (files : List (List String × String)) : Directory where
  files := files.map (fun file => (.inside file.1, file.2)) ++ [(⟨.root, ["dev", "null"]⟩, "")]
  folders := [⟨.root, ["tmp"]⟩]

/-- Whether there is a directory at a place. Those where a way starts are always there. -/
def isFolder (d : Directory) (place : Place) : Bool :=
  place.names.isEmpty || d.folders.contains place || d.files.any fun file => file.1.isBelow place

/-- The text of a file. -/
def text? (d : Directory) (place : Place) : Option String := d.files.lookup place

/-- Goes one name on from a place, which must be a directory. -/
def step? (d : Directory) (place : Place) (name : String) : Option Place :=
  if !d.isFolder place then none
  else if name == ".." then some place.parent
  else
    let next := place.child name
    if d.isFolder next || (d.text? next).isSome then some next else none

/-- Goes along names, all of which must be there. -/
def walk? (d : Directory) (place : Place) (names : List String) : Option Place :=
  names.foldlM d.step? place

/-- Whether a file or directory can be made under a name: names have at most 255 bytes, none of them
zero, and the one of the directory above is taken. -/
def isName (name : String) : Bool :=
  name != ".." && name.utf8ByteSize ≤ 255 && !name.toList.contains '\x00'

/-- Goes along names from a directory and makes the directories that are missing. -/
def makeFolders? (d : Directory) (place : Place) : List String → Option Directory
  | [] => some d
  | name :: names =>
    match d.step? place name with
    | some next => if d.isFolder next then makeFolders? d next names else none
    | none =>
      if isName name then
        let next := place.child name
        makeFolders? { d with folders := next :: d.folders } next names
      else none

/-- Puts a file into its place, or changes its text. -/
def put (d : Directory) (place : Place) (text : String) : Directory :=
  { d with files := (place, text) :: d.files.filter fun file => file.1 != place }

/-- The files in a directory that another one lacks or has with another text. -/
def changes (before after : Directory) : List (List String × String) :=
  (after.files.filter fun file =>
    file.1.origin = .above 0 && before.text? file.1 != some file.2).map fun file =>
      (file.1.names, file.2)

end Directory

/-! ## Working in a directory -/

/-- A directory that a command works in, with what the command has printed and told so far. -/
structure Workspace where
  /-- The directory. -/
  directory : Directory
  /-- What has been printed. -/
  printed : String := ""
  /-- What the user has been told. -/
  told : String := ""

namespace Workspace

/-- The name under which the directory is known. -/
def workingDirectory : String := "<cwd>"

/-- The most bytes that a path may have. -/
def pathLimit : Nat := 4095

/-- Where a path starts, and the names to go along from there. A path that is not absolute starts
with the name of the directory; one that is too long leads nowhere. -/
def start? (path : String) : Option (Place × List String) :=
  if pathLimit < path.utf8ByteSize then none
  else if Path.isAbsolute path then some ({ origin := .root }, Path.parts path)
  else
    match Path.parts path with
    | first :: names => if first == workingDirectory then some (.inside [], names) else none
    | [] => none

/-- The place of something that is there. -/
def place? (d : Directory) (path : String) : Option Place := do
  let (place, names) ← start? path
  (d.walk? place names).filter fun place => d.isFolder place || !Path.isDirectoryForm path

/-- The text of a file. -/
def readText? (d : Directory) (path : String) : Option String := (place? d path).bind d.text?

/-- The directory after another one has been made, with all directories on the way to it. -/
def ensureDirectory? (d : Directory) (path : String) : Option Directory := do
  let (place, names) ← start? path
  d.makeFolders? place names

/-- The directory after a file has been written; its own directory must be there. -/
def writeText? (d : Directory) (path text : String) : Option Directory := do
  let (place, names) ← start? path
  let name ← names.getLast?
  let folder ← d.walk? place names.dropLast
  let target := folder.child name
  if Path.isDirectoryForm path || !Directory.isName name || !d.isFolder folder ||
      d.isFolder target then none
  else some (d.put target text)

/-- Changes the directory, if that is possible; tells whether it was. -/
def change (f : Directory → Option Directory) : StateM Workspace Bool := do
  let workspace ← get
  match f workspace.directory with
  | some directory => set { workspace with directory := directory }; return true
  | none => return false

/-- The host on a directory. -/
def host : Host (StateM Workspace) where
  workingDirectory := workingDirectory
  isPresent path := do return (place? (← get).directory path).isSome
  readText path := do return readText? (← get).directory path
  ensureDirectory path := change fun directory => ensureDirectory? directory path
  writeText path text := change fun directory => writeText? directory path text
  print text := modify fun workspace => { workspace with printed := workspace.printed ++ text }
  notify text := modify fun workspace => { workspace with told := workspace.told ++ text }

/-- Carries out an invocation in a directory. -/
def run (invocation : Invocation) (directory : Directory) : Except Failure Unit × Workspace :=
  (Command.run host invocation).run.run { directory := directory }

end Workspace

end PageTree.Command
