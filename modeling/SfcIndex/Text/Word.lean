import SfcIndex.Text.Span

/-! # The word at a place

A word is a run of ASCII letters, digits, `_` and `$`. The word at an offset is made of the word
characters just before and just after it.
-/

namespace SfcIndex.Text

/-- Whether a character can be part of a word. -/
def isWordChar (c : Char) : Bool := c.isAlphanum || c = '_' || c = '$'

/-- The byte values that can be part of a word, in ascending order. -/
def wordBytes : List Nat := (List.range 256).filter fun byte => isWordChar (Char.ofNat byte)

/-- The word characters at the end of a text. -/
def trailingWord (text : List Char) : List Char :=
  (text.reverse.takeWhile isWordChar).reverse

/-- The word that an offset lies in or touches, with its span. -/
def wordAt? (text : List Char) (offset : Nat) : Option (Span × String) := do
  let (before, after) ← splitAt? offset text
  let head := trailingWord before
  let tail := after.takeWhile isWordChar
  if head.isEmpty && tail.isEmpty then none
  else some (⟨offset - width head, offset + width tail⟩, String.ofList (head ++ tail))

end SfcIndex.Text
