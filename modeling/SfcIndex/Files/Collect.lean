import SfcIndex.Files.Path

/-! # Collecting files

A text that asks for files is a pattern, or a file or directory to walk through. How a pattern is
matched and a directory is walked is left to a `Finder`. The paths that it finds are listed in
order, without those that have the parts of an earlier one.
-/

namespace SfcIndex.Files

/-- The two ways of finding paths. What cannot be read is left out of both. -/
structure Finder (m : Type → Type) where
  /-- The paths that match a pattern; none when the text is no pattern. -/
  glob : String → m (List String)
  /-- The path of a file, or those of a directory and of everything below it that is not ignored. -/
  walk : String → m (List String)

/-- Whether a text has a character that makes it a pattern. -/
def isPattern (text : String) : Bool := text.toList.any fun c => c = '*' || c = '?' || c = '['

/-- The paths in order, without those that have the parts of an earlier one, or parts that were seen
before. -/
def distinctFrom (seen : List (List Part)) : List String → List String
  | [] => []
  | path :: rest =>
    if seen.contains (parts path) then distinctFrom seen rest
    else path :: distinctFrom (parts path :: seen) rest

variable {m : Type → Type} [Monad m]

/-- The paths that a text finds. -/
def Finder.search (finder : Finder m) (text : String) : m (List String) :=
  if isPattern text then finder.glob text else finder.walk text

/-- The paths that several texts find and that are wanted, those with the same parts once. -/
def collect (finder : Finder m) (wanted : String → Bool) (texts : List String) :
    m (List String) := do
  let found ← texts.mapM finder.search
  return distinctFrom [] (found.flatten.filter wanted)

end SfcIndex.Files
