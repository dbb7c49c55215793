import SfcIndex.Script.Scan.Escape
import SfcIndex.Text.Unicode.Classes

/-! # Numbers in a script -/

namespace SfcIndex.Script

open Text Text.Unicode

/-- A number that was read. -/
structure NumberRead where
  rest : List Char
  /-- Whether an error was recorded. -/
  faulty : Bool
  /-- Whether the error makes the token unusable. -/
  broken : Bool
  /-- Whether the number has no value, as an exponent without digits. -/
  malformed : Bool

/-- The digits after the first one, with single separators between them. The flag tells that no
separator stands wrong; digits are read up to the first one that does. -/
def digitsTail (isDigit : Char → Bool) : List Char → Bool × List Char
  | [] => (true, [])
  | ['_'] => (false, [])
  | '_' :: c :: rest => if isDigit c then digitsTail isDigit rest else (false, c :: rest)
  | c :: rest => if isDigit c then digitsTail isDigit rest else (true, c :: rest)

/-- A number may not run into a name or a digit. -/
def finishNumber (faulty malformed : Bool) (rest : List Char) : NumberRead :=
  if rest.head?.any fun c => c.isDigit || isIdentifierStart c then ⟨rest, true, true, malformed⟩
  else ⟨rest, faulty, false, malformed⟩

/-- The digits of an exponent, after its sign. -/
def exponentDigits (faulty : Bool) (text : List Char) : NumberRead :=
  match text with
  | c :: rest =>
    if c.isDigit then
      let (clean, after) := digitsTail Char.isDigit rest
      finishNumber (faulty || !clean) false after
    else finishNumber true true text
  | [] => finishNumber true true text

/-- An exponent, after its letter. -/
def exponent (faulty : Bool) : List Char → NumberRead
  | '+' :: rest => exponentDigits faulty rest
  | '-' :: rest => exponentDigits faulty rest
  | text => exponentDigits faulty text

/-- The exponent of a number, if there is one. -/
def optionalExponent (faulty : Bool) : List Char → NumberRead
  | 'e' :: rest => exponent faulty rest
  | 'E' :: rest => exponent faulty rest
  | text => finishNumber faulty false text

/-- The part of a number after its decimal point. -/
def fraction (faulty : Bool) (text : List Char) : NumberRead :=
  match text with
  | c :: rest =>
    if c.isDigit then
      let (clean, after) := digitsTail Char.isDigit rest
      optionalExponent (faulty || !clean) after
    else optionalExponent faulty text
  | [] => optionalExponent faulty text

/-- A decimal number, after its first digit. -/
def decimal (text : List Char) : NumberRead :=
  let (clean, after) := digitsTail Char.isDigit text
  match after with
  | '.' :: rest => fraction (!clean) rest
  | 'n' :: rest => finishNumber (!clean) false rest
  | rest => optionalExponent (!clean) rest

/-- A number in a base other than ten, after the letter that names the base. -/
def radixNumber (isDigit : Char → Bool) : List Char → NumberRead
  | [] => ⟨[], true, true, false⟩
  | c :: rest =>
    if isDigit c then
      match digitsTail isDigit rest with
      | (false, after) => ⟨after, true, true, false⟩
      | (true, 'n' :: after) => finishNumber false false after
      | (true, after) => finishNumber false false after
    else ⟨c :: rest, true, true, false⟩

/-- A number with a leading zero and further digits, after the zero: octal unless a digit says
otherwise. -/
def leadingZeroNumber (text : List Char) : NumberRead :=
  let digits := text.takeWhile Char.isDigit
  let after := text.dropWhile Char.isDigit
  if digits.all isOctalDigit then finishNumber false false after
  else match after with
    | '.' :: rest => fraction false rest
    | rest => optionalExponent false rest

/-- A number whose first digit is zero, after that zero. -/
def zeroNumber : List Char → NumberRead
  | [] => finishNumber false false []
  | c :: rest =>
    if c = 'b' || c = 'B' then radixNumber (fun d => d = '0' || d = '1') rest
    else if c = 'o' || c = 'O' then radixNumber isOctalDigit rest
    else if c = 'x' || c = 'X' then radixNumber (fun d => (hexValue? d).isSome) rest
    else if c = 'e' || c = 'E' then exponent false rest
    else if c = '.' then fraction false rest
    else if c = 'n' then finishNumber false false rest
    else if c.isDigit then leadingZeroNumber (c :: rest)
    else finishNumber false false (c :: rest)

end SfcIndex.Script
