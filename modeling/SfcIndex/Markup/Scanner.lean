import SfcIndex.Markup.Tag

/-! # The scanner

The scanner finds the tags of a text one after the other. A tag is found at its full place, and what
is kept of the place are offsets of 32 bits (`Tag.record`). The scanner goes on from the end that was
kept, so in a text of more than four gigabytes a tag may take it back.
-/

namespace SfcIndex.Markup

open Text

/-- A tag with the offsets that are kept for it. The attributes are read where these offsets lead,
and they lead nowhere when they are reversed or cut a character. -/
def Tag.record (text : List Char) (found : Tag) : Except OffsetError Tag := do
  let start := Offset.cut found.span.start
  -- The end is counted from the offset of the `>`, so the sum may not fit.
  let stop ← Offset.add (Offset.cut (found.span.stop - 1)) 1
  let attributeSpan : Span :=
    ⟨Offset.cut found.attributeSpan.start, Offset.cut found.attributeSpan.stop⟩
  let attributeText :=
    if attributeSpan = found.attributeSpan then found.attributeText
    else (attributeSpan.slice? text).getD []
  return { found with span := ⟨start, stop⟩, attributeSpan, attributeText }

/-- A text and the place where its scan goes on. -/
structure Scanner where
  text : List Char
  cursor : Cursor
  deriving Repr, DecidableEq

namespace Scanner

/-- The scanner before the first tag. -/
def atStart (text : List Char) : Scanner := ⟨text, .atStart text⟩

/-- The scanner after a tag that was found up to a place. -/
def after (scanner : Scanner) (tag : Tag) (place : Cursor) : Scanner :=
  if tag.span.stop = place.offset then { scanner with cursor := place }
  else { scanner with cursor := (Cursor.atStart scanner.text).seek tag.span.stop }

/-- The next tag if there is one, and the scanner after the search for it. -/
def nextTag (scanner : Scanner) : Except OffsetError (Option Tag × Scanner) :=
  match scanner.cursor.nextTag? with
  | none => .ok (none, { scanner with cursor := scanner.cursor.searched scanner.cursor })
  | some (found, place) => do
    let tag ← found.record scanner.text
    return (some tag, scanner.after tag place)

/-- The scanner at the closing tag of an element whose content is no markup, or at the end of the
text when there is none. -/
def skipRaw (name : List Char) (scanner : Scanner) : Scanner :=
  { scanner with cursor := scanner.cursor.skipRaw name }

end Scanner

end SfcIndex.Markup
