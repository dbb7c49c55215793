import SfcIndex.Text.Offset
import SfcIndex.Text.Utf8

/-! # Lines and columns

A line ends at each line feed. A column counts characters, and a carriage return before the line
feed belongs to the line's end, not to its columns.
-/

namespace SfcIndex

/-- A place in a text by line and character, both counted from zero. -/
structure Position where
  /-- The number of line feeds before the place. -/
  line : Nat
  /-- The number of characters before the place on its line. -/
  character : Nat
  deriving Repr, DecidableEq

namespace Position

/-- The place just after one more character. -/
def step (place : Position) (c : Char) : Position :=
  if c = '\n' then ⟨place.line + 1, 0⟩ else ⟨place.line, place.character + 1⟩

/-- A position as it is shown to a reader, with lines and columns counted from one. -/
def render (place : Position) : Except OffsetError String := do
  let line ← Offset.add place.line 1
  let column ← Offset.add place.character 1
  return s!"{line}:{column}"

end Position

namespace Text

/-- The lines of a text, without their line feeds. -/
def lines : List Char → List (List Char)
  | [] => [[]]
  | c :: rest =>
    if c = '\n' then [] :: lines rest
    else match lines rest with
      | [] => [[c]]
      | line :: more => (c :: line) :: more

/-- The number of lines of a text: one more than its line feeds. -/
def lineCount (text : List Char) : Nat := (lines text).length

/-- The position of a byte offset. An offset past the end is at the end. -/
def position (text : List Char) (offset : Nat) : Position :=
  (startingBefore offset text).foldl Position.step ⟨0, 0⟩

/-- A line without the carriage return before its line feed. -/
def withoutReturn (line : List Char) : List Char :=
  if line.getLast? = some '\r' then line.dropLast else line

/-- The byte offset of a position; nothing when the text has no such line, or the line no such
column. -/
def offset? (text : List Char) (place : Position) : Option Nat := do
  let line ← (lines text)[place.line]?
  let columns := withoutReturn line
  if place.character ≤ columns.length then
    let before := ((lines text).take place.line).foldr (fun earlier total =>
      width earlier + 1 + total) 0
    some (before + width (columns.take place.character))
  else none

end Text

end SfcIndex
