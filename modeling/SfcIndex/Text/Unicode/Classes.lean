import SfcIndex.Text.Unicode.Digit
import SfcIndex.Text.Unicode.Letter
import SfcIndex.Text.Unicode.Mark

/-! # Characters of words and of identifiers

Three classes built from the general categories: the characters a style name is made of, those
that can start an identifier of a script, and those that can continue one.
-/

namespace SfcIndex.Text.Unicode

/-- The code points of the general category Connector Punctuation. -/
def connectorRanges : List (Nat × Nat) :=
  [(95, 95), (8255, 8256), (8276, 8276), (65075, 65076), (65101, 65103), (65343, 65343)]

/-- Symbols that count as alphabetic: letters in circles and squares. -/
def enclosedLetterRanges : List (Nat × Nat) :=
  [(9398, 9449), (127280, 127305), (127312, 127337), (127344, 127369)]

/-- The two joiners, zero width non-joiner and zero width joiner. -/
def isJoiner (c : Char) : Bool := c.toNat = 0x200C || c.toNat = 0x200D

/-- Whether a character is alphabetic, a mark, a decimal digit, a connector or a joiner. -/
def isWordLike (c : Char) : Bool :=
  if c.toNat < 128 then c.isAlphanum || c = '_'
  else
    isLetter c || isMark c || isDigit c || inRanges connectorRanges c ||
      inRanges enclosedLetterRanges c || isJoiner c

/-- Characters other than letters that may start an identifier for compatibility. -/
def otherStartRanges : List (Nat × Nat) := [(6277, 6278), (8472, 8472), (8494, 8494), (12443, 12444)]

/-- Characters that may continue an identifier for compatibility. -/
def otherContinueRanges : List (Nat × Nat) :=
  [(183, 183), (903, 903), (4969, 4977), (6618, 6618), (12539, 12539), (65381, 65381)]

/-- Marks that enclose the character before them, which are no part of identifiers. -/
def enclosingMarkRanges : List (Nat × Nat) :=
  [(1160, 1161), (6846, 6846), (8413, 8416), (8418, 8420), (42608, 42610)]

/-- The one letter that is reserved for patterns, the vertical tilde. -/
def isPatternLetter (c : Char) : Bool := c.toNat = 0x2E2F

/-- Whether an identifier can start with a character. -/
def isIdentifierStart (c : Char) : Bool :=
  if c.toNat < 128 then c.isAlpha || c = '_' || c = '$'
  else (isLetter c && !isPatternLetter c) || inRanges otherStartRanges c

/-- Whether an identifier can go on with a character. -/
def isIdentifierPart (c : Char) : Bool :=
  if c.toNat < 128 then c.isAlphanum || c = '_' || c = '$'
  else
    isIdentifierStart c || (isMark c && !inRanges enclosingMarkRanges c) || isDigit c ||
      inRanges connectorRanges c || inRanges otherContinueRanges c || isJoiner c

end SfcIndex.Text.Unicode
