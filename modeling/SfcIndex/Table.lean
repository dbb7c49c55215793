import SfcIndex.Options
import SfcIndex.Script.Analysis
import SfcIndex.Style
import SfcIndex.Template
import SfcIndex.Text.Word
import SfcIndex.Warning

/-! # The table of a file

The regions at the top level of a file are read one after the other, each by the analysis of its
kind, and what they define is put together in that order.
-/

namespace SfcIndex

open Text Markup

/-- What a file defines, in the order of its regions, with the warnings about it. -/
structure Table where
  bindings : List Binding
  warnings : List Warning
  deriving Repr, DecidableEq

/-- A place where a name is defined. -/
structure Location where
  name : String
  category : Category
  offset : Nat
  deriving Repr, DecidableEq

/-- The place of a binding. -/
def Binding.location (binding : Binding) : Location :=
  ⟨binding.name, binding.category, binding.position⟩

namespace Table

def empty : Table := ⟨[], []⟩

def append (first second : Table) : Table :=
  ⟨first.bindings ++ second.bindings, first.warnings ++ second.warnings⟩

/-- Several tables, one after the other. -/
def concat (tables : List Table) : Table := tables.foldr append empty

/-- The definitions of a name that are visible from a place. -/
def query (table : Table) (name : String) (target : Span) : List Location :=
  (table.bindings.filter fun binding => binding.name = name && binding.isVisibleFrom target).map
    Binding.location

/-! ### What one region defines -/

/-- The content of a region that has any, and the warning that it has no end. -/
def content? (text : List Char) (region : Region) : Option (Span × List Warning) := do
  let start ← region.contentStart?
  match region.contentSpan? with
  | some content => some (content, [])
  | none => some (⟨start, Offset.cut (width text)⟩, [.unclosedRegion region.name region.tagSpan])

/-- The language that a script's tag names. -/
def languageOf (region : Region) : Script.Language :=
  .ofName ((region.attribute? "lang").bind fun found => found.value.map (·.text))

/-- What a script with the given content defines; every syntax error is a warning of its own. -/
def ofScript (reader : Script.Reader) (region : Region) (content : Span) (text : List Char) :
    Except OffsetError Table := do
  let analysis := Script.analyze reader (languageOf region) (region.hasAttribute "setup") text
  let bindings ← analysis.bindings.mapM (·.shift content.start)
  let syntaxWarnings := analysis.diagnostics.map (Warning.scriptSyntax content)
  let classWarnings := if analysis.isClass then [Warning.classComponent content] else []
  return ⟨bindings, syntaxWarnings ++ classWarnings⟩

/-- What a style with the given content defines. -/
def ofStyle (content : Span) (text : List Char) : Except OffsetError Table :=
  return ⟨← (Style.bindings text).mapM (·.shift content.start), []⟩

/-- What a region of a kind defines. -/
def ofContent (reader : Script.Reader) (text : List Char) (region : Region) (content : Span) :
    Section → Except OffsetError Table
  | .template => return ⟨← Template.bindings region, []⟩
  | .script => (content.slice? text).elim (.ok empty) (ofScript reader region content)
  | .style => (content.slice? text).elim (.ok empty) (ofStyle content)

/-- What a region at the top level of a file defines. -/
def ofRegion (reader : Script.Reader) (options : Options) (text : List Char) (region : Region) :
    Except OffsetError Table := do
  match (Section.ofRegion? region).filter options.enables, content? text region with
  | some kind, some (content, warnings) =>
    return append ⟨[], warnings⟩ (← ofContent reader text region content kind)
  | _, _ => return empty

/-! ### What a file defines -/

/-- The table of a file whose scripts are read by `reader`. -/
def build (reader : Script.Reader) (options : Options) (text : List Char) :
    Except OffsetError Table := do
  let document ← Region.parse options.rawTags text
  return concat (← document.children.mapM (ofRegion reader options text))

/-- The table of a file of which the path is known; only supported files are read. -/
def buildAt (reader : Script.Reader) (options : Options) (path : String) (text : List Char) :
    Except OffsetError Table :=
  if options.supports path then build reader options text
  else .ok ⟨[], [.unsupportedDocument path (", ".intercalate options.extensions)]⟩

end Table

/-- The word at a place and where it is defined. -/
structure Definition where
  word : String
  range : Span
  locations : List Location
  deriving Repr, DecidableEq

/-- The definitions of the word at an offset; nothing when there is no word. -/
def Table.definitionAt? (table : Table) (text : List Char) (offset : Nat) : Option Definition := do
  let (range, word) ← wordAt? text offset
  return ⟨word, range, table.query word range⟩

end SfcIndex
