/-! # Sets of characters given by ranges of code points -/

namespace SfcIndex.Text.Unicode

/-- Whether a character's code point lies in one of the ranges, both ends included. -/
def inRanges (ranges : List (Nat × Nat)) (c : Char) : Bool :=
  ranges.any fun (low, high) => low ≤ c.toNat && c.toNat ≤ high

end SfcIndex.Text.Unicode
