import SfcIndex.Binding
import SfcIndex.Text.Unicode.Blank
import SfcIndex.Text.Unicode.Classes

/-! # Names defined by styles

A style defines a class `.name` or an id `#name` where the selector stands directly before a rule's
block. Selectors inside comments define nothing.
-/

namespace SfcIndex.Style

open Text

/-- Whether a character can be part of a selector's name. -/
def isSelectorChar (c : Char) : Bool := Unicode.isWordLike c || c = '-'

/-- The category of the names that a sigil introduces. -/
def sigilCategory? (c : Char) : Option Category :=
  if c = '#' then some .styleId else if c = '.' then some .styleClass else none

/-- The selector name at the start of a text, when blanks and an opening brace follow it. -/
def selectorName? (text : List Char) : Option (List Char) :=
  let name := text.takeWhile isSelectorChar
  if name.isEmpty then none
  else if ((text.dropWhile isSelectorChar).dropWhile Unicode.isBlank).head? = some '\x7b' then
    some name
  else none

/-- Whether a scan through a style is in its rules or in a comment. -/
inductive Place where
  | rules
  | comment
  deriving Repr, DecidableEq

/-- The names that a style defines, read from byte `offset` on. -/
def scan (offset : Nat) : Place → List Char → List Binding
  | _, [] => []
  | .comment, '*' :: '/' :: rest => scan (offset + 2) .rules rest
  | .comment, c :: rest => scan (offset + c.utf8Size) .comment rest
  | .rules, '/' :: '*' :: rest => scan (offset + 2) .comment rest
  | .rules, c :: rest =>
    let later := scan (offset + c.utf8Size) .rules rest
    match sigilCategory? c, selectorName? rest with
    | some category, some name =>
      { name := String.ofList name
        category
        position := offset + c.utf8Size + width name } :: later
    | _, _ => later

/-- The bindings of a style, each at the end of its name. -/
def bindings (text : List Char) : List Binding := scan 0 .rules text

end SfcIndex.Style
