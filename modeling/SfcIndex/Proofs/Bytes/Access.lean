import SfcIndex.Proofs.Bytes.Encoding

/-! # Reading a text by offsets

The ways to get at the bytes and the parts of a text by their offsets, each with what can go wrong
in it. At a place between two characters none of it does (`Bytes.On`).
-/

namespace SfcIndex.Bytes

open Text

/-- What can go wrong when a text is read by offsets. -/
inductive Fault where
  /-- A byte is not there. -/
  | index
  /-- A slice is reversed, out of bounds or cuts a character. -/
  | slice
  /-- A number is not an offset. -/
  | overflow
  /-- A range that has to cover text covers none. -/
  | absent
  /-- No element is open. -/
  | noneOpen
  deriving Repr, DecidableEq

/-- The byte at an index. -/
def byteAt (bytes : List UInt8) (index : Nat) : Except Fault UInt8 :=
  match bytes[index]? with
  | some byte => .ok byte
  | none => .error .index

/-- The bytes from an index on. -/
def bytesFrom (bytes : List UInt8) (index : Nat) : Except Fault (List UInt8) :=
  if index ≤ bytes.length then .ok (bytes.drop index) else .error .index

/-- The text between two offsets. -/
def textIn (text : List Char) (start stop : Nat) : Except Fault (List Char) :=
  match (⟨start, stop⟩ : Span).slice? text with
  | some part => .ok part
  | none => .error .slice

/-- The text that a range covers, which has to cover some. -/
def covered (text : List Char) (span : Span) : Except Fault (List Char) :=
  match span.slice? text with
  | some part => .ok part
  | none => .error .absent

/-- A number as an offset. -/
def toOffset (number : Nat) : Except Fault Nat :=
  if number ≤ Offset.limit then .ok number else .error .overflow

/-- The sum of two offsets. -/
def sum (left right : Nat) : Except Fault Nat := toOffset (left + right)

/-- The difference of two numbers. -/
def difference (left right : Nat) : Except Fault Nat :=
  if right ≤ left then .ok (left - right) else .error .overflow

theorem toOffset_eq {number : Nat} (fits : number ≤ Offset.limit) :
    toOffset number = .ok number :=
  if_pos fits

/-- A number that is an offset is kept as it is. -/
theorem eq_of_toOffset {number offset : Nat} (found : toOffset number = .ok offset) :
    offset = number := by
  unfold toOffset at found
  split at found
  next =>
    cases found
    rfl
  next => cases found

theorem sum_eq {left right : Nat} (fits : left + right ≤ Offset.limit) :
    sum left right = .ok (left + right) :=
  if_pos fits

theorem difference_eq {left right : Nat} (fits : right ≤ left) :
    difference left right = .ok (left - right) :=
  if_pos fits

/-- The byte at an index is the first one that is left there. -/
theorem byteAt_eq {bytes rest : List UInt8} {index : Nat} {byte : UInt8}
    (drop : bytes.drop index = byte :: rest) : byteAt bytes index = .ok byte := by
  have found : bytes[index]? = some byte := by
    rw [← List.head?_drop, drop]
    rfl
  rw [byteAt, found]

/-- A byte that is read stands at its index. -/
theorem getElem?_of_byteAt {bytes : List UInt8} {index : Nat} {byte : UInt8}
    (read : byteAt bytes index = .ok byte) : bytes[index]? = some byte := by
  unfold byteAt at read
  split at read
  next found =>
    cases read
    exact found
  next => cases read

/-- One byte further on, one byte less is left. -/
theorem drop_succ_of_drop {bytes rest : List UInt8} {index : Nat} {byte : UInt8}
    (drop : bytes.drop index = byte :: rest) : bytes.drop (index + 1) = rest := by
  rw [← List.drop_drop, drop]
  rfl

/-- A byte is read inside the bytes only. -/
theorem lt_of_byteAt {bytes : List UInt8} {index : Nat} {byte : UInt8}
    (read : byteAt bytes index = .ok byte) : index < bytes.length := by
  by_contra outside
  rw [byteAt, List.getElem?_eq_none (Nat.not_lt.1 outside)] at read
  cases read

/-- The offset of a cursor is a place between two characters of the text, and what is left from
there is the cursor's. -/
def On (text : List Char) (cursor : Cursor) : Prop :=
  ∃ before, text = before ++ cursor.rest ∧ cursor.offset = width before

namespace On

variable {text front rest part : List Char} {offset : Nat} {cursor : Cursor}

theorem atStart (text : List Char) : On text (.atStart text) := ⟨[], rfl, rfl⟩

/-- A cursor behind another one is at a place between two characters too. -/
theorem forward {next : Cursor} (on : On text cursor) (skips : cursor.rest = front ++ next.rest)
    (place : next.offset = cursor.offset + width front) : On text next := by
  obtain ⟨before, whole, start⟩ := on
  refine ⟨before ++ front, ?_, ?_⟩
  · rw [whole, skips, List.append_assoc]
  · rw [place, start, width_append]

/-- The place of any offset is between two characters. -/
theorem seek (on : On text cursor) (target : Nat) : On text (cursor.seek target) := by
  obtain ⟨offset, rest⟩ := cursor
  change On text (Cursor.seek.go target offset rest)
  induction rest generalizing offset with
  | nil => exact on
  | cons c rest ih =>
    rw [Cursor.seek.go]
    split
    · exact on
    · exact ih _ (@forward text [c] _ _ on rfl rfl)

/-- A cursor stays on its text when it goes over a part of it. -/
theorem skip (on : On text ⟨offset, front ++ rest⟩) : On text ⟨offset + width front, rest⟩ :=
  on.forward rfl rfl

theorem tail {c : Char} (on : On text ⟨offset, c :: rest⟩) :
    On text ⟨offset + c.utf8Size, rest⟩ := by
  have skips : c :: rest = [c] ++ rest := rfl
  exact on.forward skips rfl

/-- What is left at a cursor ends where the text ends. -/
theorem offset_add_width (on : On text cursor) :
    cursor.offset + width cursor.rest = width text := by
  obtain ⟨before, whole, place⟩ := on
  rw [whole, width_append, place]

/-- The bytes from a cursor on are those of what is left. -/
theorem drop (on : On text cursor) : (encode text).drop cursor.offset = encode cursor.rest := by
  obtain ⟨before, whole, place⟩ := on
  rw [whole, place, encode_append, ← length_encode before, List.drop_left]

/-- Where nothing is left there is no byte. -/
theorem not_lt_of_nil (on : On text ⟨offset, []⟩) : ¬ offset < (encode text).length := by
  have size := on.offset_add_width
  rw [length_encode]
  exact Nat.not_lt.2 size.ge

/-- The bytes from a cursor on are read without a fault. -/
theorem bytesFrom_eq (on : On text cursor) :
    bytesFrom (encode text) cursor.offset = .ok (encode cursor.rest) := by
  have size := on.offset_add_width
  rw [bytesFrom, if_pos (by rw [length_encode]; omega), on.drop]

/-- The byte at a cursor is the first one of what is left. -/
theorem getElem?_eq (on : On text cursor) :
    (encode text)[cursor.offset]? = (encode cursor.rest).head? := by
  rw [← List.head?_drop, on.drop]

/-- The part behind a cursor is cut out by its offsets. -/
theorem slice?_eq (on : On text ⟨offset, part ++ rest⟩) :
    (⟨offset, offset + width part⟩ : Span).slice? text = some part := by
  obtain ⟨before, whole, place⟩ := on
  exact Span.slice?_of_parts before rest whole place rfl

/-- The part behind a cursor is read by its offsets without a fault. -/
theorem textIn_eq (on : On text ⟨offset, part ++ rest⟩) :
    textIn text offset (offset + width part) = .ok part := by
  rw [textIn, on.slice?_eq]

/-- The first byte of a character is where the character is. -/
theorem exists_firstByte {c : Char} (on : On text ⟨offset, c :: rest⟩) :
    ∃ byte ∈ String.utf8EncodeChar c, byteAt (encode text) offset = .ok byte := by
  have drop := on.drop
  obtain ⟨byte, more, member, bytes⟩ := exists_encode_cons c rest
  dsimp only at drop
  rw [bytes] at drop
  exact ⟨byte, member, byteAt_eq drop⟩

/-- The last byte of a character is where it has to be. -/
theorem exists_lastByte {c : Char} (on : On text ⟨offset, c :: rest⟩) :
    ∃ byte ∈ String.utf8EncodeChar c,
      byteAt (encode text) (offset + c.utf8Size - 1) = .ok byte := by
  have positive := c.utf8Size_pos
  have inside : c.utf8Size - 1 < (String.utf8EncodeChar c).length := by
    rw [String.length_utf8EncodeChar]
    omega
  refine ⟨(String.utf8EncodeChar c).get ⟨c.utf8Size - 1, inside⟩, List.get_mem _ _, ?_⟩
  have drop := on.drop
  dsimp only at drop
  have found : (encode text)[offset + (c.utf8Size - 1)]? =
      some ((String.utf8EncodeChar c).get ⟨c.utf8Size - 1, inside⟩) := by
    rw [← List.getElem?_drop, drop, encode_cons, List.getElem?_append_left inside,
      List.getElem?_eq_getElem inside]
    rfl
  rw [byteAt, Nat.add_sub_assoc positive, found]

/-- Where a byte passes a test for ASCII characters, there is a character that passes it. -/
theorem of_byte {bytewise : UInt8 → Bool} {test : Char → Bool} (follows : Follows bytewise test)
    (ascii : ∀ c, test c = true → IsAscii c) {byte : UInt8}
    (found : (encode text)[offset]? = some byte) (passes : bytewise byte = true) :
    ∃ c rest, On text ⟨offset, c :: rest⟩ ∧ test c = true := by
  induction text generalizing offset with
  | nil => cases found
  | cons c rest ih =>
    rw [encode_cons] at found
    by_cases inside : offset < (String.utf8EncodeChar c).length
    · rw [List.getElem?_append_left inside] at found
      have member := List.mem_of_getElem? found
      rw [follows c byte member] at passes
      rw [String.length_utf8EncodeChar, utf8Size_ascii (ascii c passes)] at inside
      obtain rfl : offset = 0 := by omega
      exact ⟨c, rest, ⟨[], rfl, rfl⟩, passes⟩
    · rw [List.getElem?_append_right (Nat.not_lt.1 inside)] at found
      obtain ⟨d, after, ⟨before, rfl, place⟩, passes'⟩ := ih found
      rw [String.length_utf8EncodeChar] at inside place
      refine ⟨d, after, ⟨c :: before, rfl, ?_⟩, passes'⟩
      dsimp only at place ⊢
      rw [width_cons]
      omega

end On

end SfcIndex.Bytes
