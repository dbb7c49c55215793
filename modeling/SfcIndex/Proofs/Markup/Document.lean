import Mathlib.Tactic.Common
import SfcIndex.Markup.Region

/-! # Written documents

A document is a list of items: text, comments and elements. Each part carries what makes it well
formed, so every value of these types can be written (`Item.render`) and describes the nodes that
the written text should be read as (`Item.nodes`).
-/

namespace SfcIndex.Markup

open Text

/-- Whether a character can be part of the key of a written attribute. -/
def isKeyChar (c : Char) : Bool :=
  !(isAsciiBlank c || c = '=' || c = '"' || c = '\'' || c = '>' || c = '/')

/-- What is known of an attribute: its key and value, and the texts that their spans cover. -/
structure AttributeView where
  key : String
  keyText? : Option (List Char)
  value? : Option String
  valueText? : Option (List Char)
  deriving DecidableEq

/-- What is known of an attribute of a text. -/
def Attribute.view (text : List Char) (found : Attribute) : AttributeView where
  key := found.key
  keyText? := found.keySpan.slice? text
  value? := found.value.map (·.text)
  valueText? := found.value.bind (·.span.slice? text)

/-- An attribute as it is written, with its value in double quotes if it has one. -/
structure WrittenAttribute where
  key : List Char
  value : Option (List Char)
  key_ne_nil : key ≠ []
  key_chars : ∀ c ∈ key, isKeyChar c = true
  value_chars : ∀ text, value = some text → '"' ∉ text

namespace WrittenAttribute

/-- The attribute without the blank before it. -/
def token (written : WrittenAttribute) : List Char :=
  written.key ++ written.value.elim [] fun text => '=' :: '"' :: (text ++ ['"'])

def render (written : WrittenAttribute) : List Char := ' ' :: written.token

/-- What should be known of the attribute. -/
def meaning (written : WrittenAttribute) : AttributeView where
  key := String.ofList written.key
  keyText? := some written.key
  value? := written.value.map String.ofList
  valueText? := written.value

end WrittenAttribute

/-- The name of an element with its attributes. -/
structure Head where
  name : List Char
  attributes : List WrittenAttribute
  name_ne_nil : name ≠ []
  name_chars : ∀ c ∈ name, isNameChar c = true

namespace Head

/-- The attributes as they stand in a tag. -/
def attributeText (head : Head) : List Char := head.attributes.flatMap WrittenAttribute.render

def openTag (head : Head) : List Char := '<' :: (head.name ++ (head.attributeText ++ ['>']))

def singleTag (head : Head) : List Char :=
  '<' :: (head.name ++ (head.attributeText ++ [' ', '/', '>']))

def closeTag (head : Head) : List Char := '<' :: '/' :: (head.name ++ ['>'])

/-- The whole element around its content. -/
def enclose (head : Head) (content : List Char) : List Char :=
  head.openTag ++ (content ++ head.closeTag)

/-- Whether the content of the element is raw text. -/
def isRaw (rawTags : List String) (head : Head) : Bool :=
  rawTags.any (sameName · (String.ofList head.name))

end Head

/-- The first `-->` after the body of a comment is the one that ends the comment. -/
def EndsComment (body : List Char) : Prop :=
  ∀ before after, body ++ ['-', '-', '>'] = before ++ ('-' :: '-' :: '>' :: after) →
    body.length ≤ before.length

/-- No `</` and name, ignoring case, with another character than one of a name after it, comes
before the closing tag of the element. -/
def EndsRaw (head : Head) (content : List Char) : Prop :=
  ∀ before written c after,
    content ++ head.closeTag = before ++ ('<' :: '/' :: (written ++ c :: after)) →
      asciiFold written = asciiFold head.name → isNameChar c = false →
        content.length ≤ before.length

/-- A part of a document, when the content of elements with some names is raw text. -/
inductive Item (rawTags : List String) where
  | text (chunk : List Char) (plain : '<' ∉ chunk)
  | comment (body : List Char) (ends : EndsComment body)
  /-- An element that closes itself. -/
  | single (head : Head)
  | element (head : Head) (markup : head.isRaw rawTags = false) (children : List (Item rawTags))
  | raw (head : Head) (rawText : head.isRaw rawTags = true) (content : List Char)
      (ends : EndsRaw head content)

/-- What is known of a node: its number and its parent's, its name and attributes, its spans, the
text of its opening tag and its content. -/
structure NodeView where
  id : Nat
  parent? : Option Nat
  name : String
  attributes : List AttributeView
  tagSpan : Span
  span : Span
  contentSpan? : Option Span
  tagText : List Char
  content? : Option (List Char)
  deriving DecidableEq

/-- What a tree says of a node of a text. -/
def Region.Placed.view (text : List Char) (place : Region.Placed) : NodeView where
  id := place.region.id
  parent? := place.parent?
  name := place.region.name
  attributes := place.region.attributes.map (·.view text)
  tagSpan := place.region.tagSpan
  span := place.region.span
  contentSpan? := place.region.contentSpan?
  tagText := place.region.tagText text
  content? := place.region.content? text

namespace Item

variable {rawTags : List String}

def commentText (body : List Char) : List Char :=
  '<' :: '!' :: '-' :: '-' :: (body ++ ['-', '-', '>'])

/-- The text of a document. -/
def render : List (Item rawTags) → List Char
  | [] => []
  | .text chunk _ :: rest => chunk ++ render rest
  | .comment body _ :: rest => commentText body ++ render rest
  | .single head :: rest => head.singleTag ++ render rest
  | .element head _ children :: rest => head.enclose (render children) ++ render rest
  | .raw head _ content _ :: rest => head.enclose content ++ render rest

/-- The number of elements of a document. -/
def count : List (Item rawTags) → Nat
  | [] => 0
  | .text _ _ :: rest => count rest
  | .comment _ _ :: rest => count rest
  | .single _ :: rest => 1 + count rest
  | .element _ _ children :: rest => 1 + count children + count rest
  | .raw _ _ _ _ :: rest => 1 + count rest

/-- The node of an element at an offset that closes itself. -/
def singleNode (offset parent id : Nat) (head : Head) : NodeView where
  id := id
  parent? := some parent
  name := String.ofList head.name
  attributes := head.attributes.map WrittenAttribute.meaning
  tagSpan := ⟨offset, offset + width head.singleTag⟩
  span := ⟨offset, offset + width head.singleTag⟩
  contentSpan? := none
  tagText := head.singleTag
  content? := none

/-- The node of an element at an offset with the given content. -/
def enclosingNode (offset parent id : Nat) (head : Head) (content : List Char) : NodeView where
  id := id
  parent? := some parent
  name := String.ofList head.name
  attributes := head.attributes.map WrittenAttribute.meaning
  tagSpan := ⟨offset, offset + width head.openTag⟩
  span := ⟨offset, offset + width (head.enclose content)⟩
  contentSpan? :=
    some ⟨offset + width head.openTag, offset + width head.openTag + width content⟩
  tagText := head.openTag
  content? := some content

/-- The nodes of the elements of a document that starts at an offset, in the order of their opening
tags and numbered from `id` on. -/
def nodes (offset parent id : Nat) : List (Item rawTags) → List NodeView
  | [] => []
  | .text chunk _ :: rest => nodes (offset + width chunk) parent id rest
  | .comment body _ :: rest => nodes (offset + width (commentText body)) parent id rest
  | .single head :: rest =>
    singleNode offset parent id head ::
      nodes (offset + width head.singleTag) parent (id + 1) rest
  | .element head _ children :: rest =>
    enclosingNode offset parent id head (render children) ::
      (nodes (offset + width head.openTag) id (id + 1) children ++
        nodes (offset + width (head.enclose (render children))) parent
          (id + (1 + count children)) rest)
  | .raw head _ content _ :: rest =>
    enclosingNode offset parent id head content ::
      nodes (offset + width (head.enclose content)) parent (id + 1) rest

/-- The node of the whole text. -/
def documentNode (text : List Char) : NodeView where
  id := 0
  parent? := none
  name := Region.documentName
  attributes := []
  tagSpan := ⟨0, 0⟩
  span := ⟨0, width text⟩
  contentSpan? := some ⟨0, width text⟩
  tagText := []
  content? := some text

end Item

end SfcIndex.Markup
