import SfcIndex.Json.Value

/-! # Reading JSON

A text is JSON if it is one value with blanks around it. Nothing else is allowed: no comments, no
commas at the end, no characters below the space inside texts.
-/

namespace SfcIndex.Json

/-- The blanks between the parts of a value. -/
def isBlank (c : Char) : Bool := c = ' ' || c = '\t' || c = '\n' || c = '\r'

def skipBlanks (text : List Char) : List Char := text.dropWhile isBlank

/-- The rest of a text after a given start. -/
def after? : List Char → List Char → Option (List Char)
  | [], text => some text
  | c :: start, d :: text => if c = d then after? start text else none
  | _ :: _, [] => none

/-! ### Numbers -/

/-- At least one digit, and the text after all of them. -/
def digits? (text : List Char) : Option (List Char × List Char) :=
  let digits := text.takeWhile Char.isDigit
  if digits.isEmpty then none else some (digits, text.dropWhile Char.isDigit)

/-- The digits before the point: no zero stands in front of others. -/
def whole? : List Char → Option (List Char × List Char)
  | '0' :: rest => if rest.head?.any Char.isDigit then none else some (['0'], rest)
  | text => digits? text

/-- The digits after the point, if there is one. -/
def fraction? : List Char → Option (List Char × List Char)
  | '.' :: rest => (digits? rest).map fun (digits, rest) => ('.' :: digits, rest)
  | text => some ([], text)

/-- The power of ten, if there is one. -/
def exponent? : List Char → Option (List Char × List Char)
  | [] => some ([], [])
  | c :: rest =>
    if c = 'e' || c = 'E' then
      let (sign, rest) := match rest with
        | '+' :: rest => (['+'], rest)
        | '-' :: rest => (['-'], rest)
        | rest => ([], rest)
      (digits? rest).map fun (digits, rest) => (c :: sign ++ digits, rest)
    else some ([], c :: rest)

def number? (text : List Char) : Option (Json × List Char) := do
  let (sign, text) := match text with
    | '-' :: rest => (['-'], rest)
    | text => ([], text)
  let (whole, text) ← whole? text
  let (fraction, text) ← fraction? text
  let (exponent, text) ← exponent? text
  return (.number (String.ofList (sign ++ whole ++ fraction ++ exponent)), text)

/-! ### Texts -/

/-- The value of a hexadecimal digit. -/
def hexDigit? (c : Char) : Option Nat :=
  if c.isDigit then some (c.toNat - '0'.toNat)
  else if 'a' ≤ c && c ≤ 'f' then some (c.toNat - 'a'.toNat + 10)
  else if 'A' ≤ c && c ≤ 'F' then some (c.toNat - 'A'.toNat + 10)
  else none

/-- The code unit after `\u`. -/
def unit? : List Char → Option (Nat × List Char)
  | a :: b :: c :: d :: rest => do
    let digits ← [a, b, c, d].mapM hexDigit?
    return (digits.foldl (fun value digit => 16 * value + digit) 0, rest)
  | _ => none

/-- The character that a simple escape stands for. -/
def escaped? (c : Char) : Option Char :=
  match c with
  | '"' => some '"'
  | '\\' => some '\\'
  | '/' => some '/'
  | 'b' => some '\x08'
  | 'f' => some '\x0c'
  | 'n' => some '\n'
  | 'r' => some '\r'
  | 't' => some '\t'
  | _ => none

/-- The code units of a text after its opening quote, and what follows its closing quote; `fuel`
bounds their number. -/
def units? : (fuel : Nat) → List Char → Option (List Nat × List Char)
  | 0, _ => none
  | _ + 1, [] => none
  | _ + 1, '"' :: rest => some ([], rest)
  | fuel + 1, '\\' :: 'u' :: rest => do
    let (unit, rest) ← unit? rest
    let (units, rest) ← units? fuel rest
    return (unit :: units, rest)
  | fuel + 1, '\\' :: c :: rest => do
    let c ← escaped? c
    let (units, rest) ← units? fuel rest
    return (c.toNat :: units, rest)
  | fuel + 1, c :: rest => do
    if c.toNat < 0x20 || c = '\\' then none
    else
      let (units, rest) ← units? fuel rest
      return (c.toNat :: units, rest)

/-- Whether a code unit is the first half of a pair. -/
def isHigh (unit : Nat) : Bool := 0xD800 ≤ unit && unit < 0xDC00

/-- Whether a code unit is the second half of a pair. -/
def isLow (unit : Nat) : Bool := 0xDC00 ≤ unit && unit < 0xE000

/-- The characters of code units, if every half of a pair has its other half. -/
def characters? : List Nat → Option (List Char)
  | [] => some []
  | high :: low :: rest =>
    if isHigh high && isLow low then do
      let c := Char.ofNat (0x10000 + 0x400 * (high - 0xD800) + (low - 0xDC00))
      return c :: (← characters? rest)
    else if isHigh high || isLow high then none
    else do return Char.ofNat high :: (← characters? (low :: rest))
  | [unit] => if isHigh unit || isLow unit then none else some [Char.ofNat unit]

/-- A text after its opening quote. -/
def text? (text : List Char) : Option (Option String × List Char) := do
  let (units, rest) ← units? (text.length + 1) text
  return ((characters? units).map String.ofList, rest)

/-! ### Values -/

/-- A literal word and the value it stands for. -/
def word? (word : String) (value : Json) (text : List Char) : Option (Json × List Char) := do
  return (value, ← after? word.toList text)

/-- Items up to a closing character, with commas between them. The first one may be missing. -/
def items? {α : Type} (close : Char) (item? : List Char → Option (α × List Char)) :
    (fuel : Nat) → (first : Bool) → List Char → Option (List α × List Char)
  | 0, _, _ => none
  | fuel + 1, first, text =>
    match skipBlanks text with
    | [] => none
    | c :: rest =>
      if c = close && first then some ([], rest)
      else do
        let (item, rest) ← item? (c :: rest)
        match skipBlanks rest with
        | ',' :: rest => do
          let rest := skipBlanks rest
          if rest.head? = some close then none
          else
            let (items, rest) ← items? close item? fuel false rest
            return (item :: items, rest)
        | d :: rest => if d = close then some ([item], rest) else none
        | [] => none

/-- A key, a colon and a value. -/
def member? (value? : List Char → Option (Json × List Char)) :
    List Char → Option ((Option String × Json) × List Char)
  | '"' :: rest => do
    let (key, rest) ← text? rest
    let rest ← after? [':'] (skipBlanks rest)
    let (value, rest) ← value? (skipBlanks rest)
    return ((key, value), rest)
  | _ => none

/-- A value at the start of a text, nested at most `depth` deep. -/
def value? : (depth : Nat) → List Char → Option (Json × List Char)
  | 0, _ => none
  | depth + 1, text =>
    match text with
    | 'n' :: _ => word? "null" .null text
    | 't' :: _ => word? "true" (.bool true) text
    | 'f' :: _ => word? "false" (.bool false) text
    | '"' :: rest => (text? rest).map fun (value, rest) => (.string value, rest)
    | '[' :: rest =>
      (items? ']' (value? depth) (rest.length + 1) true rest).map fun (elements, rest) =>
        (.array elements, rest)
    | '\x7b' :: rest =>
      (items? '\x7d' (member? (value? depth)) (rest.length + 1) true rest).map
        fun (members, rest) => (.object members, rest)
    | text => number? text

/-- The value that a text is. -/
def read? (text : List Char) : Option Json := do
  let (value, rest) ← value? (text.length + 1) (skipBlanks text)
  if (skipBlanks rest).isEmpty then some value else none

end SfcIndex.Json
