import SfcIndex.Script.Scan.Escape

/-! # Texts, templates and regular expressions -/

namespace SfcIndex.Script

open Text

/-- A literal that was read up to its end. -/
structure LiteralRead where
  units : List Nat
  rest : List Char
  /-- Whether all escapes are well formed. -/
  sound : Bool

/-- A text in quotes, after its opening quote; nothing when it does not end on its line. -/
def readText (quote : Char) : (fuel : Nat) → List Char → Option LiteralRead
  | 0, _ => none
  | _ + 1, [] => none
  | fuel + 1, c :: rest =>
    if c = quote then some ⟨[], rest, true⟩
    else if c = '\n' || c = '\r' then none
    else if c = '\\' then
      if rest.isEmpty then none
      else
        let piece := escape false rest
        (readText quote fuel piece.rest).map fun tail =>
          { tail with
            units := piece.value?.getD [] ++ tail.units
            sound := tail.sound && piece.value?.isSome }
    else (readText quote fuel rest).map fun tail => { tail with units := c.toNat :: tail.units }

/-- A part of a template: it ends at a backquote, or at a substitution. -/
structure TemplateRead where
  rest : List Char
  last : Bool
  sound : Bool

/-- A part of a template, after its opening mark; nothing when the template does not end. -/
def readTemplate : (fuel : Nat) → List Char → Option TemplateRead
  | 0, _ => none
  | _ + 1, [] => none
  | _ + 1, '\x60' :: rest => some ⟨rest, true, true⟩
  | _ + 1, '$' :: '\x7b' :: rest => some ⟨rest, false, true⟩
  | _ + 1, ['\\'] => none
  | fuel + 1, '\\' :: rest =>
    let piece := escape true rest
    (readTemplate fuel piece.rest).map fun tail =>
      { tail with sound := tail.sound && piece.value?.isSome }
  | fuel + 1, _ :: rest => readTemplate fuel rest

/-- The body of a regular expression, after its opening slash; nothing when it does not end on its
line. -/
def readPattern (inClass : Bool) : List Char → Option (List Char)
  | [] => none
  | ['\\'] => none
  | '\\' :: c :: rest => if isLineEnd c then none else readPattern inClass rest
  | c :: rest =>
    if isLineEnd c then none
    else if c = '[' then readPattern true rest
    else if c = ']' then readPattern false rest
    else if c = '/' && !inClass then some rest
    else readPattern inClass rest

/-- The flags that a regular expression may have, each once. -/
def patternFlags : List Char := ['d', 'g', 'i', 'm', 's', 'u', 'v', 'y']

/-- The flags after a regular expression, with whether they are all known and distinct. -/
def readFlags (text : List Char) : Bool × List Char :=
  let flags := text.takeWhile fun c => c.isAlphanum || c = '_' || c = '$'
  (flags.all patternFlags.contains && flags.eraseDups.length = flags.length,
    text.drop flags.length)

/-- A text in quotes inside a tag, after its opening quote: it has no escapes and may go over
lines. -/
def readMarkupText (quote : Char) (text : List Char) : Option (List Char) :=
  match text.dropWhile (· ≠ quote) with
  | [] => none
  | _ :: rest => some rest

end SfcIndex.Script
