import SfcIndex.Script.Scan.Escape
import SfcIndex.Text.Unicode.Classes

/-! # Names in a script

A name is a run of identifier characters, some of which may be written as escapes.
-/

namespace SfcIndex.Script

open Text Text.Unicode

/-- A name that was read. -/
structure NameRead where
  name : List Char
  rest : List Char
  /-- Whether it is written with escapes. -/
  escaped : Bool
  /-- Whether one of its escapes is malformed or denotes no identifier character. -/
  faulty : Bool

/-- The character that an escape in a name denotes, from the text after its backslash. A malformed
escape takes one more character with it. -/
def nameEscape (atStart : Bool) : List Char → Piece Char
  | 'u' :: rest =>
    let units := unicodeEscape rest
    match units.value? with
    | some [unit] =>
      let c := Char.ofNat unit
      let fits := isScalar unit && (if atStart then isIdentifierStart c else isIdentifierPart c)
      let paired := rest.head? != some '\x7b' && unit > 0xFFFF
      ⟨if fits && !paired then some c else none, units.rest⟩
    | some _ => ⟨none, units.rest⟩
    | none => ⟨none, units.rest.drop 1⟩
  | text => ⟨none, text.drop 1⟩

/-- Reads on in a name; `fuel` bounds the number of characters. -/
def readName (atStart : Bool) : (fuel : Nat) → List Char → NameRead
  | 0, text => ⟨[], text, false, false⟩
  | _ + 1, [] => ⟨[], [], false, false⟩
  | fuel + 1, c :: rest =>
    if c = '\\' then
      let piece := nameEscape atStart rest
      let tail := readName false fuel piece.rest
      { tail with
        name := piece.value?.toList ++ tail.name
        escaped := true
        faulty := tail.faulty || piece.value?.isNone }
    else if isIdentifierPart c then
      let tail := readName false fuel rest
      { tail with name := c :: tail.name }
    else ⟨[], c :: rest, false, false⟩

/-- The name at the start of a text. -/
def nameAt (text : List Char) : NameRead := readName true text.length text

/-- Whether a name can start with a character or with the backslash of an escape. -/
def startsName (c : Char) : Bool := isIdentifierStart c || c = '\\'

end SfcIndex.Script
