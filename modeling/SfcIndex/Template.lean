import SfcIndex.Binding
import SfcIndex.Markup.Region
import SfcIndex.Text.Unicode.Blank
import SfcIndex.Text.Unicode.Classes
import SfcIndex.Text.Word

/-! # Names defined by templates

`ref="name"` names an element for the whole file. The aliases of `v-for` and the variables of
`v-slot`, `#slot` and `slot-scope` are names for the element that carries the attribute.
-/

namespace SfcIndex.Template

open Text Markup

/-- The runs of word characters in a text, each with its byte offset. -/
def wordRuns (offset : Nat) (text : List Char) : List (Nat × List Char) :=
  match text with
  | [] => []
  | c :: rest =>
    if isWordChar c then
      let run := c :: rest.takeWhile isWordChar
      (offset, run) :: wordRuns (offset + width run) (rest.dropWhile isWordChar)
    else wordRuns (offset + c.utf8Size) rest
  termination_by text.length
  decreasing_by
    · have := (List.dropWhile_suffix isWordChar (l := rest)).length_le
      simp; omega
    · simp

/-- Whether a run of word characters is an identifier: it does not start with a digit. -/
def isIdentifier (run : List Char) : Bool := !(run.head?.any Char.isDigit)

/-- The identifiers in a text, each with its byte offset. -/
def identifiers (text : List Char) : List (Nat × List Char) :=
  (wordRuns 0 text).filter fun (_, run) => isIdentifier run

/-- The text after `in` or `of` at the start of a text. -/
def afterKeyword? : List Char → Option (List Char)
  | 'i' :: 'n' :: rest => some rest
  | 'o' :: 'f' :: rest => some rest
  | _ => none

/-- Whether a text starts with `in` or `of` and a blank. -/
def startsWithKeyword (text : List Char) : Bool :=
  (afterKeyword? text).any fun rest => rest.head?.any Unicode.isBlank

/-- The text before the first `in` or `of` with blanks around it, without the blanks before it. -/
def beforeKeyword? : List Char → Option (List Char)
  | [] => none
  | c :: rest =>
    if Unicode.isBlank c && startsWithKeyword (rest.dropWhile Unicode.isBlank) then some []
    else (beforeKeyword? rest).map (c :: ·)

/-- The part of a `v-for` value that names its aliases, with its byte offset. Without a keyword it
is what comes before the first space. -/
def loopAliases (value : List Char) : Nat × List Char :=
  let lead := value.takeWhile Unicode.isBlank
  let body := value.dropWhile Unicode.isBlank
  match beforeKeyword? body with
  | some aliases => (width lead, aliases)
  | none =>
    if !lead.isEmpty && startsWithKeyword body then (width lead, [])
    else (0, value.takeWhile (· ≠ ' '))

/-- Whether an attribute key is `v-slot`, alone or with `:` and a slot's name. -/
def isSlotDirective (key : List Char) : Bool :=
  match "v-slot".toList.isPrefixOf? key with
  | some [] => true
  | some (':' :: slot) => !slot.isEmpty && slot.all fun c => Unicode.isWordLike c || c = '-'
  | _ => false

/-- Whether the value of an attribute declares slot variables. -/
def isSlotKey (key : String) : Bool :=
  key = "slot-scope" || (key.utf8ByteSize > 1 && key.toList.head? = some '#') ||
    isSlotDirective key.toList

/-- Bindings for the identifiers of a text at byte `base`, seen inside `scope`. -/
def scopedBindings (text : List Char) (base : Nat) (category : Category) (scope : Span) :
    Except OffsetError (List Binding) :=
  (identifiers text).mapM fun (start, run) => do
    let position ← Offset.add base start
    return { name := String.ofList run, category, position, scope := some scope }

/-- The bindings that an attribute of an element with the given span declares. -/
def attributeBindings (scope : Span) (declaration : Attribute) :
    Except OffsetError (List Binding) := do
  let some value := declaration.value | return []
  if declaration.key = "ref" then
    if value.text.isEmpty then return []
    return [{ name := value.text, category := .ref, position := value.span.start }]
  else if declaration.key = "v-for" then
    let (skipped, aliases) := loopAliases value.text.toList
    let base ← Offset.add value.span.start skipped
    scopedBindings aliases base .vForScope scope
  else if isSlotKey declaration.key then
    scopedBindings value.text.toList value.span.start .slotScope scope
  else return []

/-- The bindings that an element declares, in the order of its attributes. -/
def elementBindings (element : Region) : Except OffsetError (List Binding) := do
  return (← element.attributes.mapM (attributeBindings element.span)).flatten

/-- The bindings of a template and all elements in it, in document order. -/
def bindings (template : Region) : Except OffsetError (List Binding) := do
  return (← template.descendants.mapM elementBindings).flatten

end SfcIndex.Template
