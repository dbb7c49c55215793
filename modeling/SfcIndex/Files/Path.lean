/-! # Paths

A path is a text with slashes between its parts. Empty parts and `.` lead nowhere, except for a
slash or a `.` at the start.
-/

namespace SfcIndex.Files

/-- The parts of a path. -/
inductive Part where
  /-- The top of the file system, at the start only. -/
  | root
  /-- The directory itself, at the start only. -/
  | here
  /-- The directory above. -/
  | above
  | name (name : String)
  deriving Repr, DecidableEq

namespace Part

/-- What a piece between slashes is; nothing when it leads nowhere. -/
def ofPiece? (piece : String) : Option Part :=
  if piece = "" || piece = "." then none
  else if piece = ".." then some above
  else some (name piece)

def name? : Part → Option String
  | name text => some text
  | _ => none

end Part

/-- The pieces of a path between its slashes, empty ones included. -/
def pieces (path : String) : List String := (path.toList.splitOn '/').map String.ofList

/-- The parts of a path. Two paths with the same parts lead to the same place. -/
def parts (path : String) : List Part :=
  match pieces path with
  | [""] => []
  | "" :: rest => .root :: rest.filterMap Part.ofPiece?
  | "." :: rest => .here :: rest.filterMap Part.ofPiece?
  | all => all.filterMap Part.ofPiece?

/-- The name of the file that a path leads to, if its last part is a name. -/
def fileName? (path : String) : Option String := (parts path).getLast?.bind Part.name?

/-- Whether a directory of the given name is on the way, or at the end, of a path. -/
def passes (name path : String) : Bool := (parts path).contains (.name name)

/-- The path of an entry of a directory. -/
def join (directory entry : String) : String :=
  if directory = "" || directory.endsWith "/" then directory ++ entry
  else directory ++ "/" ++ entry

end SfcIndex.Files
