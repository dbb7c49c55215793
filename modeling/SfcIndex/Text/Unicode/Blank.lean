import SfcIndex.Text.Unicode.Ranges

/-! # White space -/

namespace SfcIndex.Text.Unicode

/-- The code points with the property White_Space, in ascending ranges. -/
def blankRanges : List (Nat × Nat) :=
  [(9, 13), (32, 32), (133, 133), (160, 160), (5760, 5760), (8192, 8202), (8232, 8233),
    (8239, 8239), (8287, 8287), (12288, 12288)]

/-- Whether a character is white space in the sense of Unicode. -/
def isBlank (c : Char) : Bool := inRanges blankRanges c

end SfcIndex.Text.Unicode
