import SfcIndex.Files.Collect
import SfcIndex.Files.Disk
import SfcIndex.Files.Glob
import SfcIndex.Files.Ignore

/-! # Finding files

On a disk a pattern finds the paths that it matches, in ascending order. A walk finds a file, or a
directory and what is below it.
-/

namespace SfcIndex.Files

variable {m : Type → Type} [Monad m]

/-- How many steps a search goes down. -/
def searchDepth : Nat := 4096

/-- The path of an entry of a directory; those of the working directory are plain names. -/
def entryPath (directory entry : String) : String :=
  if parts directory = [.here] then entry else join directory entry

/-! ### Patterns -/

mutual

/-- The paths below a directory that match the segments of a pattern. -/
def expand (disk : Disk m) (onlyDirectories : Bool) :
    (fuel : Nat) → List Segment → String → m (List String)
  | 0, _, _ => return []
  | _ + 1, [], path => do
    return if !onlyDirectories || (← disk.isDirectory path) then [path] else []
  | fuel + 1, segment :: rest, path => do
    match segment.literal? with
    | some name =>
      let next := entryPath path name
      let found ←
        if name = "." || name = ".." then disk.isDirectory path
        else Option.isSome <$> disk.kind? next
      if found then expand disk onlyDirectories fuel rest next else return []
    | none =>
      unless ← disk.isDirectory path do return []
      let special := if segment.startsWithDot then ["..", "."].filter segment.accepts else []
      let outside ← special.mapM fun name => expand disk onlyDirectories fuel rest (join path name)
      let inside ← (← disk.sortedNames path).mapM fun name =>
        visit disk onlyDirectories fuel segment rest path name
      return outside.flatten ++ inside.flatten

/-- The paths at or below an entry of a directory that match the segments of a pattern. -/
def visit (disk : Disk m) (onlyDirectories : Bool) :
    (fuel : Nat) → Segment → List Segment → String → String → m (List String)
  | 0, _, _, _, _ => return []
  | fuel + 1, .directories, rest, directory, name => do
    let path := entryPath directory name
    let isDirectory ← disk.isDirectory path
    match rest.dropWhile (· = .directories) with
    | [] =>
      unless isDirectory do return []
      return path :: (← expand disk onlyDirectories fuel [.directories] path)
    | next :: further =>
      let here ←
        if next.accepts name then expand disk onlyDirectories fuel further path else pure []
      let below ←
        if isDirectory then
          expand disk onlyDirectories fuel (.directories :: next :: further) path
        else pure []
      return here ++ below
  | fuel + 1, segment, rest, directory, name => do
    if segment.accepts name then
      expand disk onlyDirectories fuel rest (entryPath directory name)
    else return []

end

/-- The paths that match a pattern. -/
def Glob.paths (glob : Glob) (disk : Disk m) : m (List String) :=
  expand disk glob.onlyDirectories searchDepth glob.segments glob.start

/-! ### Walks -/

/-- The rules that a directory has; `base` are the names on the way to it. -/
def levelAt (disk : Disk m) (base : List String) (path : String) : m IgnoreLevel := do
  let rulesIn (name : String) : m (List IgnoreRule) := do
    match ← disk.readText (join path name) with
    | .ok text => return ignoreRules text
    | .error _ => return []
  return {
    base
    rules := ← rulesIn ".ignore"
    repositoryRules := ← rulesIn ".gitignore"
    isRepository := (← disk.kind? (join path ".git")).isSome }

/-- The rules of the directories on the way down to a place from `top`, the nearest first. -/
def levelsTo (disk : Disk m) (top : String) (names : List String) : m (List IgnoreLevel) := do
  let levels ← (List.range names.length).mapM fun count =>
    let base := names.take count
    levelAt disk base (base.foldl join top)
  return levels.reverse

/-- The paths below a directory, those that rules leave out apart. -/
def walkBelow (disk : Disk m) :
    (fuel : Nat) → List IgnoreLevel → (names : List String) → (path : String) → m (List String)
  | 0, _, _, _ => return []
  | fuel + 1, levels, names, path => do
    let levels := (← levelAt disk names path) :: levels
    let found ← (← disk.sortedNames path).mapM fun name => do
      let entry := join path name
      let isDirectory ← disk.isDirectory entry
      if IgnoreLevel.passesOver levels (names ++ [name]) name isDirectory then return []
      if isDirectory then return entry :: (← walkBelow disk fuel levels (names ++ [name]) entry)
      return [entry]
    return found.flatten

/-- A file, or a directory and everything in it. -/
def walk (disk : Disk m) (path : String) : m (List String) := do
  match ← disk.kind? path with
  | none => return []
  | some .file => return [path]
  | some .directory =>
    let climbs := (parts path).contains .above
    let top := if (parts path).head? = some .root then "/" else "."
    let names := if climbs then [] else (parts path).filterMap Part.name?
    let levels ← levelsTo disk top names
    return path :: (← walkBelow disk searchDepth levels names path)

/-! ### Both together -/

/-- The paths that are found on a disk. -/
def Disk.finder (disk : Disk m) : Finder m where
  glob text :=
    match Glob.parse? text with
    | none => return []
    | some glob => glob.paths disk
  walk := walk disk

end SfcIndex.Files
