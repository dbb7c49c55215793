import SfcIndex.Script.Scan.Literal
import SfcIndex.Script.Scan.Name
import SfcIndex.Script.Scan.Number
import SfcIndex.Script.Scan.Punctuator

/-! # Reading one token

How a text is cut into tokens depends on where the grammar is: `Lexeme.read` is the ordinary rule,
and the other readers here are used where a regular expression, the rest of a template or the
inside of an element is expected.
-/

namespace SfcIndex.Script

open Text

/-- A token with the places where it starts and where the text goes on. -/
structure Lexeme where
  token : Token
  start : Cursor
  rest : Cursor
  /-- Whether an error was found while reading it. -/
  faulty : Bool

namespace Lexeme

/-- A lexeme of the given kind from `start` up to `rest`. -/
def make (kind : TokenKind) (start : Cursor) (rest : List Char) (onNewLine : Bool)
    (faulty escaped : Bool) : Lexeme :=
  let stop := start.moveTo rest
  ⟨⟨kind, ⟨start.offset, stop.offset⟩, onNewLine, escaped⟩, start, stop, faulty⟩

/-- What the characters at a place make, as a kind, the text after it, and whether it is faulty
and written with escapes. -/
def classify (text : List Char) : TokenKind × List Char × Bool × Bool :=
  match text with
  | [] => (.endOfText, [], false, false)
  | c :: rest =>
    if startsName c then
      let name := nameAt text
      (.word (String.ofList name.name), name.rest, name.faulty, name.escaped)
    else if c = '"' || c = '\'' then
      match readText c rest.length rest with
      | some read => (.text (renderUnits read.units), read.rest, !read.sound, false)
      | none => (.broken, [], true, false)
    else if c = '\x60' then
      match readTemplate rest.length rest with
      | some read => (.template read.last read.sound, read.rest, false, false)
      | none => (.broken, [], true, false)
    else if c = '#' then
      if rest.head?.any startsName then
        let name := nameAt rest
        (.privateName (String.ofList name.name), name.rest, name.faulty, name.escaped)
      else (.broken, [], true, false)
    else if c.isDigit || (c = '.' && rest.head?.any Char.isDigit) then
      let read :=
        if c = '0' then zeroNumber rest else if c = '.' then fraction false rest else decimal rest
      if read.broken then (.broken, [], true, false)
      else (.number read.malformed, read.rest, read.faulty, false)
    else
      match punctuatorAt? text with
      | some (punct, after) => (.punct punct, after, false, false)
      | none => (.broken, [], true, false)

/-- The token after a gap. -/
def afterGap (gap : Gap) : Lexeme :=
  if gap.unterminated then make .endOfText gap.stop [] gap.endsLine true false
  else
    let (kind, rest, faulty, escaped) := classify gap.stop.rest
    make kind gap.stop rest gap.endsLine (faulty || gap.hasMarkupComment) escaped

/-- The token at or after a place. -/
def read (cursor : Cursor) : Lexeme := afterGap (.read cursor)

/-- The rest of a template after a substitution, from the place after the closing brace. -/
def readTemplateTail (start cursor : Cursor) : Lexeme :=
  match readTemplate cursor.rest.length cursor.rest with
  | some read => make (.template read.last read.sound) start read.rest false false false
  | none => make .broken start [] false true false

/-- The text between two tags of an element, or the mark that ends it. -/
def readElementText (cursor : Cursor) : Lexeme :=
  match cursor.rest with
  | [] => make .endOfText cursor [] false false false
  | '<' :: rest => make (.punct .less) cursor rest false false false
  | '\x7b' :: rest => make (.punct .lbrace) cursor rest false false false
  | text =>
    make .elementText cursor (text.dropWhile fun c => c ≠ '<' && c ≠ '\x7b') false false false

/-- The value of an attribute of an element, from the place after its `=`. -/
def readAttributeValue (cursor : Cursor) : Lexeme :=
  let gap := Gap.read cursor
  match gap.stop.rest with
  | c :: rest =>
    if !gap.unterminated && (c = '"' || c = '\'') then
      match readMarkupText c rest with
      | some after => make (.text "") gap.stop after gap.endsLine gap.hasMarkupComment false
      | none => make .broken gap.stop [] gap.endsLine true false
    else afterGap gap
  | [] => afterGap gap

end Lexeme

end SfcIndex.Script
