import SfcIndex.Files.Path
import SfcIndex.Markup.Region

/-! # Options

Which files are read, and what of them.
-/

namespace SfcIndex

/-- The kinds of region whose names are collected. -/
inductive Section where
  | template
  | script
  | style
  deriving Repr, DecidableEq

namespace Section

/-- The tag name of a region of this kind. -/
def tag : Section → String
  | template => "template"
  | script => "script"
  | style => "style"

/-- The kind of a region, by its tag name. -/
def ofRegion? (region : Markup.Region) : Option Section :=
  [template, script, style].find? fun kind => region.isTag kind.tag

end Section

/-- What to read. -/
structure Options where
  /-- The endings of the names of files that are read. -/
  extensions : List String := [".vue", ".nvue"]
  /-- The elements whose content is never markup. -/
  rawTags : List String := Markup.Region.defaultRawTags
  template : Bool := true
  script : Bool := true
  style : Bool := true
  deriving Repr, DecidableEq

namespace Options

/-- Whether regions of a kind are read. -/
def enables (options : Options) : Section → Bool
  | .template => options.template
  | .script => options.script
  | .style => options.style

/-- Whether a path leads to a file that is read. -/
def supports (options : Options) (path : String) : Bool :=
  (Files.fileName? path).any fun name => options.extensions.any fun ending => name.endsWith ending

end Options

end SfcIndex
