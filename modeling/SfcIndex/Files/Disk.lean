import SfcIndex.Files.Path

/-! # File systems

The library sees files through a `Disk`, in whatever monad reading them takes. A `Tree` is a disk
that is a value.
-/

namespace SfcIndex.Files

/-- Why a file cannot be read. -/
inductive ReadError where
  | missing
  /-- Something on the way to the file is no directory. -/
  | notDirectory
  | isDirectory
  /-- The bytes of the file are no text. -/
  | notText
  | other (message : String)
  deriving Repr, DecidableEq

def ReadError.message : ReadError → String
  | missing => "No such file or directory (os error 2)"
  | notDirectory => "Not a directory (os error 20)"
  | isDirectory => "Is a directory (os error 21)"
  | notText => "stream did not contain valid UTF-8"
  | other message => message

/-- What a path leads to. -/
inductive EntryKind where
  | file
  | directory
  deriving Repr, DecidableEq

/-- A file system as far as the library uses it. -/
structure Disk (m : Type → Type) where
  /-- What a path leads to, if anything. -/
  kind? : String → m (Option EntryKind)
  /-- The names in a directory, in any order. -/
  names : String → m (List String)
  /-- The content of a file. -/
  read : String → m (Except ReadError ByteArray)

namespace Disk

variable {m : Type → Type} [Monad m]

def isDirectory (disk : Disk m) (path : String) : m Bool :=
  return (← disk.kind? path) = some .directory

/-- The names in a directory in ascending order. -/
def sortedNames (disk : Disk m) (path : String) : m (List String) :=
  return (← disk.names path).mergeSort fun first second => first ≤ second

/-- The text that a file holds. -/
def readText (disk : Disk m) (path : String) : m (Except ReadError String) := do
  match ← disk.read path with
  | .error error => return .error error
  | .ok bytes => return (String.fromUTF8? bytes).elim (.error .notText) .ok

end Disk

/-! ### File systems in memory -/

/-- A file or a directory with everything in it. -/
inductive Tree where
  | file (content : ByteArray)
  | directory (entries : List (String × Tree))

namespace Tree

def empty : Tree := .directory []

def entries : Tree → List (String × Tree)
  | file _ => []
  | directory entries => entries

/-- The tree with an entry of its top directory put in place. -/
def put (tree : Tree) (name : String) (entry : Tree) : Tree :=
  .directory ((tree.entries.filter fun found => found.1 ≠ name) ++ [(name, entry)])

/-- The tree with one more file, given by the names on the way to it. -/
def insert (content : ByteArray) : List String → Tree → Tree
  | [], _ => .file content
  | name :: rest, tree =>
    tree.put name (insert content rest ((tree.entries.lookup name).getD empty))

/-- The tree below directories with the given names, the outermost first. -/
def under (names : List String) (tree : Tree) : Tree :=
  names.foldr (fun name below => .directory [(name, below)]) tree

/-- The tree of files with the given paths. -/
def ofFiles (files : List (String × ByteArray)) : Tree :=
  files.foldl (fun tree (path, content) => insert content ((parts path).filterMap Part.name?) tree)
    empty

/-- What the pieces of a path lead to from a place; `above` holds the directories on the way to that
place, the nearest first. There is nothing above the top, so that it is its own parent. -/
def descend (above : List Tree) (here : Tree) : List String → Except ReadError Tree
  | [] => .ok here
  | piece :: rest =>
    match here with
    | file _ => .error .notDirectory
    | directory entries =>
      if piece = "" || piece = "." then descend above here rest
      else if piece = ".." then
        match above with
        | [] => descend [] here rest
        | parent :: further => descend further parent rest
      else
        match entries.lookup piece with
        | none => .error .missing
        | some entry => descend (here :: above) entry rest

/-- What a path leads to: from the top when it starts with a slash, and otherwise from the working
directory, which is given by the names on the way to it. -/
def find (tree : Tree) (directory : List String) (path : String) : Except ReadError Tree :=
  if path = "" then .error .missing
  else if path.startsWith "/" then descend [] tree (pieces path)
  else descend [] tree (directory ++ pieces path)

/-- A tree as a file system, with the working directory that its user is in. -/
def disk (tree : Tree) (directory : List String) : Disk Id where
  kind? path :=
    match tree.find directory path with
    | .ok (.file _) => some .file
    | .ok (.directory _) => some .directory
    | .error _ => none
  names path :=
    match tree.find directory path with
    | .ok found => found.entries.map Prod.fst
    | .error _ => []
  read path :=
    match tree.find directory path with
    | .ok (.file content) => .ok content
    | .ok (.directory _) => .error .isDirectory
    | .error error => .error error

end Tree

end SfcIndex.Files
