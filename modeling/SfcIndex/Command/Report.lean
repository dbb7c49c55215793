import SfcIndex.Json.Printer
import SfcIndex.Table
import SfcIndex.Text.Lines

/-! # What the command prints -/

namespace SfcIndex.Command

open Text Markup

/-- Lines and columns are shown counted from one. -/
structure ShownPosition where
  line : Nat
  column : Nat
  deriving Repr, DecidableEq

/-- The position of an offset as it is shown. -/
def shownPosition (text : List Char) (offset : Nat) : ShownPosition :=
  let place := position text offset
  ⟨place.line + 1, place.character + 1⟩

/-- A text filled up with blanks to a width. -/
def padRight (width : Nat) (text : String) : String :=
  text ++ String.ofList (List.replicate (width - text.length) ' ')

/-! ### Definitions -/

/-- One line for a place where the word is defined. -/
def locationLine (file : String) (text : List Char) (location : Location) : String :=
  let place := shownPosition text location.offset
  s!"{file}:{place.line}:{place.column} ({location.category.label})\n"

/-- The members that every shown place of a name has. -/
def placeFields (text : List Char) (location : Location) : List (String × Json) :=
  let place := shownPosition text location.offset
  [("name", .ofString location.name), ("category", .ofString location.category.label),
    ("offset", .ofNat location.offset), ("line", .ofNat place.line), ("column", .ofNat place.column)]

/-- The definitions of a word as a value. -/
def definitionJson (file : String) (text : List Char) (found : Option Definition) : Json :=
  let locations := found.elim [] Definition.locations
  .ofFields
    [("file", .ofString file),
      ("word", found.elim .null fun definition => .ofString definition.word),
      ("locations", .array (locations.map fun location => .ofFields (placeFields text location)))]

/-- What is said when nothing was found. -/
def notFoundMessage (offset : Nat) : Option Definition → String
  | none => s!"No identifier at offset {offset}"
  | some definition => s!"No definition found for \x60{definition.word}\x60"

/-! ### Tables -/

/-- One line for a binding. -/
def bindingLine (text : List Char) (binding : Binding) : String :=
  let place := shownPosition text binding.position
  let scope := binding.scope.elim "" fun span => s!"  (in {span.render})"
  let location := padRight 8 s!"{place.line}:{place.column}"
  s!"  {location} {padRight 12 binding.category.label} {binding.name}{scope}\n"

/-- The table of a file as text. -/
def tableText (file : String) (text : List Char) (table : Table) : String :=
  s!"{file}\n" ++ String.join (table.bindings.map (bindingLine text))

def spanJson (span : Span) : Json :=
  .ofFields [("start", .ofNat span.start), ("end", .ofNat span.stop)]

def bindingJson (text : List Char) (binding : Binding) : Json :=
  let scope := binding.scope.map fun span =>
    ("scope", Json.array [.ofNat span.start, .ofNat span.stop])
  .ofFields (placeFields text binding.location ++ scope.toList)

def warningJson (warning : Warning) : Json :=
  let fields := match warning with
    | .scriptSyntax region message =>
      [("region", spanJson region), ("message", .ofString message)]
    | .classComponent region => [("region", spanJson region)]
    | .unclosedRegion name region => [("name", .ofString name), ("region", spanJson region)]
    | .unsupportedDocument path expected =>
      [("path", .ofString path), ("expected", .ofString expected)]
  .ofFields (("kind", .ofString warning.label) :: fields)

/-- The table of a file as a value. -/
def tableJson (file : String) (text : List Char) (table : Table) : Json :=
  .ofFields
    [("file", .ofString file), ("bindings", .array (table.bindings.map (bindingJson text))),
      ("warnings", .array (table.warnings.map warningJson))]

/-! ### Regions -/

/-- An attribute as it is shown. -/
def attributeText (shown : Attribute) : String :=
  match shown.value with
  | some value => s!" {shown.key}=\"{value.text}\""
  | none => s!" {shown.key}"

/-- The content of a region as it is shown. -/
def contentText (region : Region) : String :=
  match region.contentSpan? with
  | some content => s!" [{content.render}]"
  | none => if region.isSelfClosing then "" else " [unclosed]"

/-- One line for a region, further in the deeper it is. -/
def regionLine (place : Region.Placed) : String :=
  let region := place.region
  String.ofList (List.replicate (2 * place.depth) ' ') ++ s!"{region.name} {region.span.render}" ++
    contentText region ++ String.join (region.attributes.map attributeText) ++ "\n"

/-- The regions of a file, one a line. -/
def regionsText (document : Region) : String := String.join (document.placed.map regionLine)

end SfcIndex.Command
