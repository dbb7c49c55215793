import SfcIndex.Script.Scan.Gap

/-! # Escapes in texts, templates and names

An escape that is not well formed adds nothing; what it consumed before it went wrong is lost.
-/

namespace SfcIndex.Script

open Text

/-- The value of a hexadecimal digit. -/
def hexValue? (c : Char) : Option Nat :=
  if '0' ≤ c ∧ c ≤ '9' then some (c.toNat - '0'.toNat)
  else if 'a' ≤ c ∧ c ≤ 'f' then some (c.toNat - 'a'.toNat + 10)
  else if 'A' ≤ c ∧ c ≤ 'F' then some (c.toNat - 'A'.toNat + 10)
  else none


/-- What reading a piece of an escape gives: its value, unless it is malformed, and the text after
what was consumed. -/
structure Piece (α : Type) where
  value? : Option α
  rest : List Char

/-- Exactly `count` hexadecimal digits, in front of which `value` was read. -/
def hexDigits (value : Nat) : Nat → List Char → Piece Nat
  | 0, text => ⟨some value, text⟩
  | _ + 1, [] => ⟨none, []⟩
  | count + 1, c :: rest =>
    match hexValue? c with
    | some digit => hexDigits (value * 16 + digit) count rest
    | none => ⟨none, c :: rest⟩

/-- The digits of a code point in braces, after the first one. -/
def codePointTail (value : Nat) : List Char → Piece Nat
  | [] => ⟨none, []⟩
  | c :: rest =>
    match hexValue? c with
    | some digit =>
      if value * 16 + digit > 0x10FFFF then ⟨none, rest⟩ else codePointTail (value * 16 + digit) rest
    | none => if c = '\x7d' then ⟨some value, rest⟩ else ⟨none, c :: rest⟩

/-- A code point in braces, from the text after the opening brace. -/
def bracedCodePoint : List Char → Piece Nat
  | [] => ⟨none, []⟩
  | c :: rest =>
    match hexValue? c with
    | some digit => codePointTail digit rest
    | none => ⟨none, c :: rest⟩

def isHighSurrogate (unit : Nat) : Bool := 0xD800 ≤ unit && unit ≤ 0xDBFF

def isLowSurrogate (unit : Nat) : Bool := 0xDC00 ≤ unit && unit ≤ 0xDFFF

/-- The code point of a pair of surrogates. -/
def joinSurrogates (high low : Nat) : Nat := (high - 0xD800) * 0x400 + (low - 0xDC00) + 0x10000

/-- The units that the text after `\u` denotes. A high surrogate takes a second escape with it. -/
def unicodeEscape : List Char → Piece (List Nat)
  | '\x7b' :: rest =>
    let point := bracedCodePoint rest
    ⟨point.value?.map ([·]), point.rest⟩
  | text =>
    let first := hexDigits 0 4 text
    match first.value?, first.rest with
    | some high, '\\' :: 'u' :: rest =>
      if isHighSurrogate high then
        let second := hexDigits 0 4 rest
        ⟨second.value?.map fun low =>
          if isLowSurrogate low then [joinSurrogates high low] else [high, low], second.rest⟩
      else ⟨some [high], first.rest⟩
    | value?, rest => ⟨value?.map ([·]), rest⟩

def isOctalDigit (c : Char) : Bool := '0' ≤ c && c ≤ '7'

/-- An octal escape of up to three digits, the first of which is given. -/
def octalEscape (first : Char) (rest : List Char) : Piece (List Nat) :=
  let limit := if first ≤ '3' then 2 else 1
  let more := (rest.take limit).takeWhile isOctalDigit
  let value := (first :: more).foldl (fun value c => value * 8 + (c.toNat - '0'.toNat)) 0
  ⟨some [value], rest.drop more.length⟩

/-- The units that the text after a backslash denotes, in a text or, with other rules for digits,
in a template. -/
def escape (inTemplate : Bool) : List Char → Piece (List Nat)
  | [] => ⟨some [], []⟩
  | '\r' :: '\n' :: rest => ⟨some [], rest⟩
  | c :: rest =>
    if isLineEnd c then ⟨some [], rest⟩
    else match c with
      | 'b' => ⟨some [0x08], rest⟩
      | 'f' => ⟨some [0x0C], rest⟩
      | 'n' => ⟨some [0x0A], rest⟩
      | 'r' => ⟨some [0x0D], rest⟩
      | 't' => ⟨some [0x09], rest⟩
      | 'v' => ⟨some [0x0B], rest⟩
      | 'x' =>
        let value := hexDigits 0 2 rest
        ⟨value.value?.map ([·]), value.rest⟩
      | 'u' => unicodeEscape rest
      | _ =>
        if c = '0' && !(rest.head?.any Char.isDigit) then ⟨some [0], rest⟩
        else if inTemplate && c.isDigit then ⟨none, if c = '0' then rest.drop 1 else rest⟩
        else if isOctalDigit c then octalEscape c rest
        else ⟨some [c.toNat], rest⟩

/-- Whether a unit is a character. -/
def isScalar (unit : Nat) : Bool := !(0xD800 ≤ unit && unit ≤ 0xDFFF)

/-- A unit that is no character, as it is shown: a replacement character and four digits. -/
def renderLone (unit : Nat) : List Char :=
  Char.ofNat 0xFFFD :: ((Nat.toDigits 16 unit).leftpad 4 '0')

/-- The text of a list of units. Where one of them is no character, it is shown by its digits, and
so is a replacement character. -/
def renderUnits (units : List Nat) : String :=
  if units.all isScalar then String.ofList (units.map Char.ofNat)
  else
    String.ofList <| units.flatMap fun unit =>
      if isScalar unit && unit != 0xFFFD then [Char.ofNat unit] else renderLone unit

end SfcIndex.Script
