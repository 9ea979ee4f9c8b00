/-! # Paths

File paths as texts, with slashes between their parts. **`Path.parts`** are the parts that lead
somewhere, **`Path.join`** goes on from a directory, **`Path.parent`** and **`Path.fileName?`**
split off the last part, and **`Path.withExtension`** exchanges what follows the last point of a
file name. -/

namespace PageTree.Path

/-- The pieces of a text between slashes. -/
def split : List Char → List (List Char)
  | [] => [[]]
  | c :: cs =>
    match split cs with
    | [] => [[c]]
    | piece :: pieces => if c = '/' then [] :: piece :: pieces else (c :: piece) :: pieces

/-- Whether a path starts at the root. -/
def isAbsolute (path : String) : Bool := path.toList.head? == some '/'

/-- The parts of a path without the empty ones and those that stay where they are. -/
def parts (path : String) : List String :=
  ((split path.toList).map String.ofList).filter fun part => part != "" && part != "."

/-- Whether the end of a path says that it is a directory: a slash, or a part that stays there. -/
def isDirectoryForm (path : String) : Bool :=
  match (split path.toList).getLast? with
  | some [] => true
  | some ['.'] => true
  | _ => false

/-- Goes on from a directory; an absolute path leaves it behind. -/
def join (directory path : String) : String :=
  if isAbsolute path then path
  else if directory.toList.getLast? == some '/' then directory ++ path
  else directory ++ "/" ++ path

/-- The path of the directory that holds the last part of a path. -/
def parent (path : String) : String :=
  (if isAbsolute path then "/" else "") ++ "/".intercalate (parts path).dropLast

/-- The last part of a path, if it is a name. -/
def fileName? (path : String) : Option String :=
  match (parts path).getLast? with
  | some ".." => none
  | name => name

/-- A file name up to its last point; a point in front starts no extension. -/
def stem (name : List Char) : List Char :=
  match name.reverse.dropWhile (· != '.') with
  | '.' :: before => if before.isEmpty then name else before.reverse
  | _ => name

/-- A file name without what follows its last point, unless that point is in front. -/
def withoutExtension (name : List Char) : List Char :=
  if stem name == name then name else stem name ++ ['.']

/-- A file name with another extension. Where the name without its own one is that of the directory
above, it is left so. -/
def withExtension (name extension : String) : String :=
  let bare := withoutExtension name.toList
  if bare == ['.', '.'] then ".."
  else String.ofList (stem bare) ++ "." ++ extension

end PageTree.Path
