/-! # ASCII classes and case

Markup knows only ASCII: its blanks are space, tab, line feed, form feed and carriage return, and
its names differ only in letters other than `A` to `Z` and `a` to `z`.
-/

namespace SfcIndex.Text

/-- Whether a character separates the parts of a tag. -/
def isAsciiBlank (c : Char) : Bool :=
  c = ' ' || c = '\t' || c = '\n' || c = '\x0c' || c = '\r'

/-- The text with its ASCII capitals made small. -/
def asciiFold (text : List Char) : List Char := text.map Char.toLower

/-- Whether two names are equal when the case of ASCII letters is ignored. -/
def sameName (left right : String) : Bool :=
  asciiFold left.toList == asciiFold right.toList

end SfcIndex.Text
