import SfcIndex.Text.Unicode.Blank
import SfcIndex.Text.Unicode.Mark

/-! # Quoted texts

A text between quotes, in which every character can be seen: those that cannot are written by
number.
-/

namespace SfcIndex.Text

/-- Whether a character is drawn by itself: no control, no blank but the space, no mark on another
character and no mark of direction. -/
def isVisible (c : Char) : Bool :=
  let code := c.toNat
  let control := code < 0x20 || (0x7F ≤ code && code < 0xA0)
  let formatting := code = 0xAD || (0x200B ≤ code && code < 0x2010) ||
    (0x2028 ≤ code && code < 0x202F) || (0x2060 ≤ code && code < 0x2070) || code = 0xFEFF ||
    (0xE000 ≤ code && code < 0xF900) || 0xE0000 ≤ code
  c = ' ' || !(control || formatting || Unicode.isBlank c || Unicode.isMark c)

/-- A character as it is written between quotes. -/
def quotedChar (c : Char) : List Char :=
  match c with
  | '"' => ['\\', '"']
  | '\\' => ['\\', '\\']
  | '\n' => ['\\', 'n']
  | '\r' => ['\\', 'r']
  | '\t' => ['\\', 't']
  | '\x00' => ['\\', '0']
  | c =>
    if isVisible c then [c]
    else ['\\', 'u', '\x7b'] ++ Nat.toDigits 16 c.toNat ++ ['\x7d']

/-- A text between quotes. -/
def quoted (text : String) : String :=
  "\"" ++ String.ofList (text.toList.flatMap quotedChar) ++ "\""

/-- Texts between quotes as a list. -/
def quotedList (texts : List String) : String := "[" ++ ", ".intercalate (texts.map quoted) ++ "]"

end SfcIndex.Text
