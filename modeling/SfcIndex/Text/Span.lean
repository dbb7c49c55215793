import SfcIndex.Text.Offset
import SfcIndex.Text.Utf8

/-! # Spans of text

A span is a pair of byte offsets into a text, from its first byte up to and without its last.
Nothing forces the two to be in order: a reversed span is empty and holds no text.
-/

namespace SfcIndex

/-- A range of bytes `start..stop`. -/
structure Span where
  /-- The offset of the first byte. -/
  start : Nat
  /-- The offset just after the last byte. -/
  stop : Nat
  deriving Repr, DecidableEq, Inhabited

namespace Span

/-- The span without bytes at an offset. -/
def emptyAt (offset : Nat) : Span := ⟨offset, offset⟩

/-- The number of bytes in a span; a reversed span has none. -/
def length (span : Span) : Nat := span.stop - span.start

/-- Whether a span holds no byte. -/
def isEmpty (span : Span) : Bool := span.stop ≤ span.start

/-- Whether the bounds of another span lie within this one's, ends included. -/
def contains (outer inner : Span) : Bool :=
  outer.start ≤ inner.start && inner.stop ≤ outer.stop

/-- The span moved forward. -/
def shift (span : Span) (base : Nat) : Except OffsetError Span := do
  let start ← Offset.add span.start base
  let stop ← Offset.add span.stop base
  return ⟨start, stop⟩

/-- The text a span covers; nothing when it is reversed, out of bounds or cuts a character. -/
def slice? (span : Span) (text : List Char) : Option (List Char) :=
  if span.stop < span.start then none
  else do
    let (_, rest) ← Text.splitAt? span.start text
    let (inside, _) ← Text.splitAt? (span.stop - span.start) rest
    return inside

/-- The text with what a span covers replaced; nothing when the span covers no text. -/
def replace? (span : Span) (text insert : List Char) : Option (List Char) :=
  if span.stop < span.start then none
  else do
    let (before, rest) ← Text.splitAt? span.start text
    let (_, later) ← Text.splitAt? (span.stop - span.start) rest
    return before ++ insert ++ later

/-- A span as it is shown to a reader. -/
def render (span : Span) : String := s!"{span.start}..{span.stop}"

end Span

end SfcIndex
