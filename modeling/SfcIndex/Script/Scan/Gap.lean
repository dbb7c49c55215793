import SfcIndex.Text.Cursor

/-! # Blanks and comments between tokens -/

namespace SfcIndex.Script

open Text

/-- Whether a character ends a line. -/
def isLineEnd (c : Char) : Bool :=
  c = '\n' || c = '\r' || c.toNat = 0x2028 || c.toNat = 0x2029

/-- Whether a character is a blank within a line. -/
def isSpace (c : Char) : Bool :=
  c = ' ' || c = '\t' || c = '\x0b' || c = '\x0c' || c.toNat = 0x85 || c.toNat = 0xA0 ||
    c.toNat = 0x1680 || (0x2000 ≤ c.toNat && c.toNat ≤ 0x200B) || c.toNat = 0x202F ||
    c.toNat = 0x205F || c.toNat = 0x3000 || c.toNat = 0xFEFF

/-- What comes before a token. -/
structure Gap where
  /-- The place of the token. -/
  stop : Cursor
  /-- Whether a line ends in the gap. -/
  endsLine : Bool
  /-- Whether a comment is written as in markup, which modules do not allow. -/
  hasMarkupComment : Bool
  /-- Whether the gap ends within a comment. -/
  unterminated : Bool
  deriving Repr, DecidableEq

/-- Where a scan through a gap is. -/
inductive GapPlace where
  | blank
  | lineComment
  | blockComment
  deriving Repr, DecidableEq

namespace Gap

/-- The gap from byte `offset` on, given what was seen before. -/
def scan (offset : Nat) (endsLine markup : Bool) : GapPlace → List Char → Gap
  | .blockComment, [] => ⟨⟨offset, []⟩, endsLine, markup, true⟩
  | _, [] => ⟨⟨offset, []⟩, endsLine, markup, false⟩
  | .blockComment, '*' :: '/' :: rest => scan (offset + 2) endsLine markup .blank rest
  | .blockComment, c :: rest =>
    scan (offset + c.utf8Size) (endsLine || isLineEnd c) markup .blockComment rest
  | .lineComment, c :: rest =>
    if isLineEnd c then scan (offset + c.utf8Size) true markup .blank rest
    else scan (offset + c.utf8Size) endsLine markup .lineComment rest
  | .blank, '/' :: '/' :: rest => scan (offset + 2) endsLine markup .lineComment rest
  | .blank, '/' :: '*' :: rest => scan (offset + 2) endsLine markup .blockComment rest
  | .blank, '<' :: '!' :: '-' :: '-' :: rest => scan (offset + 4) endsLine true .lineComment rest
  | .blank, c :: rest =>
    if isLineEnd c then scan (offset + c.utf8Size) true markup .blank rest
    else if isSpace c then scan (offset + c.utf8Size) endsLine markup .blank rest
    else ⟨⟨offset, c :: rest⟩, endsLine, markup, false⟩

/-- The gap at a place. -/
def read (cursor : Cursor) : Gap := scan cursor.offset false false .blank cursor.rest

end Gap

end SfcIndex.Script
