import SfcIndex.Text.Utf8

/-! # Cursors

A cursor is a place in a text together with what is left of the text from there.
-/

namespace SfcIndex.Text

/-- A byte offset, with the text from there on. -/
structure Cursor where
  offset : Nat
  rest : List Char
  deriving Repr, DecidableEq

namespace Cursor

/-- The start of a text. -/
def atStart (text : List Char) : Cursor := ⟨0, text⟩

/-- The place after the next character. -/
def next (cursor : Cursor) : Cursor :=
  match cursor.rest with
  | [] => cursor
  | c :: rest => ⟨cursor.offset + c.utf8Size, rest⟩

/-- The place after the next characters, as many as told. -/
def skip : Nat → Cursor → Cursor
  | 0, cursor => cursor
  | count + 1, cursor => skip count cursor.next

/-- The place after the longest run of characters that pass a test. -/
def skipWhile (cursor : Cursor) (test : Char → Bool) : Cursor :=
  ⟨cursor.offset + width (cursor.rest.takeWhile test), cursor.rest.dropWhile test⟩

/-- The place at a later part of the same text. -/
def moveTo (cursor : Cursor) (rest : List Char) : Cursor :=
  ⟨cursor.offset + (width cursor.rest - width rest), rest⟩

/-- The place of an offset at or behind a cursor. An offset inside a character stands for the end of
the character. -/
def seek (target : Nat) (cursor : Cursor) : Cursor :=
  go cursor.offset cursor.rest
where
  /-- The first place at or after `offset` that is not before the target. -/
  go (offset : Nat) : List Char → Cursor
    | [] => ⟨offset, []⟩
    | c :: rest => if target ≤ offset then ⟨offset, c :: rest⟩ else go (offset + c.utf8Size) rest

@[simp] theorem length_next_le (cursor : Cursor) :
    cursor.next.rest.length ≤ cursor.rest.length := by
  obtain ⟨offset, rest⟩ := cursor
  cases rest <;> simp [next]

end Cursor

end SfcIndex.Text
