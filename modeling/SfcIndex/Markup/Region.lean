import SfcIndex.Markup.Attribute
import SfcIndex.Markup.Scanner

/-! # The region tree of a file

The elements of a file form a tree below one node for the whole document. A closing tag closes the
nearest open element of its name, and elements opened after that one stay without an end. The
content of a raw-text element is never read as markup.
-/

namespace SfcIndex.Markup

open Text

/-- How an element ends. -/
inductive Ending where
  /-- Its opening tag is all there is of it. -/
  | selfClosing
  /-- No closing tag of its own was found. -/
  | unclosed
  /-- Closed by the closing tag at the given span. -/
  | closedBy (tag : Span)
  deriving Repr, DecidableEq

/-- What an opening tag tells about its element, with the element's number in document order. -/
structure Opening where
  id : Nat
  name : String
  attributes : List Attribute
  span : Span
  deriving Repr, DecidableEq

/-- An element with the elements inside it. -/
inductive Region where
  | node (opening : Opening) (ending : Ending) (children : List Region)
  deriving Repr

namespace Region

/-- The name of the node that stands for the whole document. -/
def documentName : String := "#document"

def opening : Region → Opening
  | node opening _ _ => opening

def ending : Region → Ending
  | node _ ending _ => ending

def children : Region → List Region
  | node _ _ children => children

def id (region : Region) : Nat := region.opening.id

def name (region : Region) : String := region.opening.name

def attributes (region : Region) : List Attribute := region.opening.attributes

def tagSpan (region : Region) : Span := region.opening.span

/-- Whether the region is the whole document. -/
def isRoot (region : Region) : Bool := region.id = 0

def isSelfClosing (region : Region) : Bool := region.ending = .selfClosing

/-- The offset after the opening tag; a self-closing element has no content. -/
def contentStart? (region : Region) : Option Nat :=
  match region.ending with
  | .selfClosing => none
  | _ => some region.tagSpan.stop

/-- The offset of the closing tag. -/
def contentStop? (region : Region) : Option Nat :=
  match region.ending with
  | .closedBy tag => some tag.start
  | _ => none

/-- The offset after the element. -/
def stop? (region : Region) : Option Nat :=
  match region.ending with
  | .selfClosing => some region.tagSpan.stop
  | .unclosed => none
  | .closedBy tag => some tag.stop

/-- The content of a closed element. -/
def contentSpan? (region : Region) : Option Span := do
  return ⟨← region.contentStart?, ← region.contentStop?⟩

/-- The whole element; only its opening tag when it was never closed. -/
def span (region : Region) : Span :=
  ⟨region.tagSpan.start, region.stop?.getD region.tagSpan.stop⟩

/-- Whether the region has the given tag name, ignoring ASCII case. -/
def isTag (region : Region) (name : String) : Bool := sameName region.name name

/-- The last attribute whose key passes a test. -/
def findAttribute? (region : Region) (test : String → Bool) : Option Attribute :=
  region.attributes.reverse.find? fun candidate => test candidate.key

/-- The attribute with the given key; the last one when the key is repeated. -/
def attribute? (region : Region) (key : String) : Option Attribute :=
  region.findAttribute? (· = key)

def hasAttribute (region : Region) (key : String) : Bool := (region.attribute? key).isSome

/-- The text of the opening tag. -/
def tagText (region : Region) (text : List Char) : List Char :=
  (region.tagSpan.slice? text).getD []

/-- The text inside a closed element. -/
def content? (region : Region) (text : List Char) : Option (List Char) := do
  (← region.contentSpan?).slice? text

/-! ### Traversal -/

/-- A region with its parent's number and its distance from the document. -/
structure Placed where
  region : Region
  parent? : Option Nat
  depth : Nat

mutual

/-- The region and everything below it in document order, in front of `rest`. -/
def placedOnto (parent? : Option Nat) (depth : Nat) (rest : List Placed) : Region → List Placed
  | node opening ending children =>
    ⟨node opening ending children, parent?, depth⟩ ::
      placedAllOnto (some opening.id) (depth + 1) rest children

/-- Several regions and everything below them in document order, in front of `rest`. -/
def placedAllOnto (parent? : Option Nat) (depth : Nat) (rest : List Placed) :
    List Region → List Placed
  | [] => rest
  | region :: more =>
    placedOnto parent? depth (placedAllOnto parent? depth rest more) region

end

/-- Every node at or below a document, in document order, with its place in the tree. -/
def placed (document : Region) : List Placed := placedOnto none 0 [] document

/-- The region itself and everything below it, in document order. -/
def descendants (region : Region) : List Region := region.placed.map (·.region)

/-- The node with the given number, and its place in the tree. -/
def find? (document : Region) (id : Nat) : Option Placed :=
  document.placed.find? fun place => place.region.id = id

/-- The first node with the given tag name at or below a region, in document order. -/
def firstByName? (region : Region) (name : String) : Option Region :=
  region.descendants.find? fun node => node.isTag name

end Region

/-! ### Reading a file -/

/-- An element whose closing tag has not been met, with its finished children, last first. -/
structure OpenElement where
  opening : Opening
  finished : List Region

namespace OpenElement

/-- The element with its children, ended as told. -/
def close (element : OpenElement) (ending : Ending) : Region :=
  .node element.opening ending element.finished.reverse

end OpenElement

/-- A tree under construction: the open elements, innermost first, the finished top-level regions,
last first, and the number of the next element. -/
structure Builder where
  opened : List OpenElement
  finished : List Region
  nextId : Nat

namespace Builder

def start : Builder := ⟨[], [], 1⟩

/-- The region becomes the last child of the innermost open element. -/
def append (builder : Builder) (region : Region) : Builder :=
  match builder.opened with
  | [] => { builder with finished := region :: builder.finished }
  | inner :: outer =>
    { builder with opened := { inner with finished := region :: inner.finished } :: outer }

/-- Ends the innermost open element. -/
def closeInnermost (builder : Builder) (ending : Ending) : Builder :=
  match builder.opened with
  | [] => builder
  | inner :: outer => { builder with opened := outer }.append (inner.close ending)

/-- Ends the innermost open elements without closing tags, as many as told. -/
def abandon : Nat → Builder → Builder
  | 0, builder => builder
  | count + 1, builder => abandon count (builder.closeInnermost .unclosed)

/-- The tree after an opening or self-closing tag. -/
def openTag (builder : Builder) (tag : Tag) : Except OffsetError Builder := do
  let attributes ← Attribute.parse tag.attributeSpan.start tag.attributeText
  let opening : Opening := ⟨builder.nextId, tag.name, attributes, tag.span⟩
  let numbered := { builder with nextId := builder.nextId + 1 }
  if tag.kind = .selfClosing then return numbered.append (.node opening .selfClosing [])
  else return { numbered with opened := ⟨opening, []⟩ :: builder.opened }

/-- The tree after a closing tag, which closes the nearest open element of its name and is ignored
when there is none. -/
def closeTag (builder : Builder) (tag : Tag) : Builder :=
  match builder.opened.findIdx? fun element => sameName element.opening.name tag.name with
  | none => builder
  | some inside => (builder.abandon inside).closeInnermost (.closedBy tag.span)

/-- The tree after one more tag. -/
def addTag (builder : Builder) (tag : Tag) : Except OffsetError Builder :=
  if tag.kind = .closing then .ok (builder.closeTag tag) else builder.openTag tag

/-- The document of the given length in bytes, all open elements ended. -/
def finish (builder : Builder) (length : Nat) : Region :=
  let ended := builder.abandon builder.opened.length
  .node ⟨0, Region.documentName, [], ⟨0, 0⟩⟩ (.closedBy ⟨length, length⟩) ended.finished.reverse

end Builder

namespace Region

/-- The tags whose content is raw text when nothing else is said. -/
def defaultRawTags : List String := ["script", "style"]

/-- The place from which scanning goes on after a tag. -/
def resume (rawTags : List String) (tag : Tag) (next : Cursor) : Cursor :=
  if tag.kind = .opening && rawTags.any (sameName · tag.name) then next.skipRaw tag.name.toList
  else next

end Region

/-- The tree after all tags that a scanner finds; nothing when it never stops finding tags. -/
def Builder.readTags (rawTags : List String) (builder : Builder) (scanner : Scanner) :
    Option (Except OffsetError Builder) :=
  match scanner.nextTag with
  | .error fault => some (.error fault)
  | .ok (none, _) => some (.ok builder)
  | .ok (some tag, next) =>
    match builder.addTag tag with
    | .error fault => some (.error fault)
    | .ok grown =>
      grown |>.readTags rawTags { next with cursor := Region.resume rawTags tag next.cursor }
  partial_fixpoint

namespace Region

/-- The region tree of a file. -/
def parse (rawTags : List String) (text : List Char) : Except OffsetError Region := do
  let builder ← (Builder.start.readTags rawTags (.atStart text)).getD (.error .endless)
  return builder.finish (Offset.cut (width text))

end Region

end SfcIndex.Markup
