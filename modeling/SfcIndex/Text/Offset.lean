/-! # Byte offsets

An offset counts bytes of UTF-8 text. Offsets are kept in 32 bits. A place that is further away is
cut to the bits that fit, and a sum that does not fit is refused.
-/

namespace SfcIndex

/-- What can go wrong when offsets are computed. -/
inductive OffsetError where
  /-- A sum is larger than the largest offset. -/
  | overflow
  /-- Offsets that were cut take a scan back again and again, and it never ends. -/
  | endless
  deriving Repr, DecidableEq

namespace OffsetError

/-- The wording of an offset error; a scan that never ends says nothing. -/
def message : OffsetError → String
  | overflow => "attempt to add with overflow"
  | endless => ""

end OffsetError

namespace Offset

/-- The largest offset. -/
def limit : Nat := 4294967295

/-- The offset that is kept for a place: the part of it that fits into 32 bits. -/
def cut (place : Nat) : Nat := place % (limit + 1)

/-- The sum of two offsets, refused when it exceeds the largest offset. -/
def add (left right : Nat) : Except OffsetError Nat :=
  if left + right ≤ limit then .ok (left + right) else .error .overflow

theorem add_eq_ok {left right : Nat} (fits : left + right ≤ limit) :
    add left right = .ok (left + right) := by
  simp [add, fits]

end Offset

end SfcIndex
