import SfcIndex.Text.Ascii
import SfcIndex.Text.Span

/-! # Attributes of an opening tag

The text between a tag's name and its end is cut into tokens at blanks outside quotes. A token is a
key, or a key and a value divided by its first `=`; a value loses one pair of matching quotes around
it. A token without key, and a lone `/`, is no attribute.
-/

namespace SfcIndex.Markup

open Text

/-- A value with the place of its text, quotes excluded. -/
structure AttributeValue where
  text : String
  span : Span
  deriving Repr, DecidableEq

/-- An attribute; a bare one such as `scoped` has no value. -/
structure Attribute where
  key : String
  keySpan : Span
  value : Option AttributeValue
  deriving Repr, DecidableEq

namespace Attribute

/-- The quote that is open after one more character, given the one open before it. -/
def quoteAfter (openQuote : Option Char) (c : Char) : Option Char :=
  match openQuote with
  | some quote => if c = quote then none else some quote
  | none => if c = '"' || c = '\'' then some c else none

/-- The text up to the first blank outside quotes, and the text from there on. -/
def splitToken : Option Char → List Char → List Char × List Char
  | _, [] => ([], [])
  | openQuote, c :: rest =>
    if openQuote.isNone && isAsciiBlank c then ([], c :: rest)
    else
      let (token, after) := splitToken (quoteAfter openQuote c) rest
      (c :: token, after)

theorem append_splitToken (openQuote : Option Char) (text : List Char) :
    (splitToken openQuote text).1 ++ (splitToken openQuote text).2 = text := by
  induction text generalizing openQuote with
  | nil => rfl
  | cons c rest ih =>
    rw [splitToken]
    split
    · rfl
    · simp [ih]

theorem splitToken_ne_nil {c : Char} (solid : isAsciiBlank c = false) (rest : List Char) :
    (splitToken none (c :: rest)).1 ≠ [] := by
  simp [splitToken, solid]

/-- The tokens of an attribute text, each with its byte offset in the text. -/
def tokens (offset : Nat) (text : List Char) : List (Nat × List Char) :=
  match text with
  | [] => []
  | c :: rest =>
    if _blank : isAsciiBlank c then tokens (offset + c.utf8Size) rest
    else
      let parts := splitToken none (c :: rest)
      (offset, parts.1) :: tokens (offset + width parts.1) parts.2
  termination_by text.length
  decreasing_by
    · simp
    · have whole := congrArg List.length (append_splitToken none (c :: rest))
      have token := splitToken_ne_nil (by simpa using _blank) rest
      have := List.length_pos_iff.2 token
      simp at whole ⊢; omega

/-- The text without a pair of matching quotes around it, and the bytes left out before it. -/
def unquote (raw : List Char) : List Char × Nat :=
  match raw with
  | quote :: inner =>
    if (quote = '"' || quote = '\'') && inner.getLast? = some quote then (inner.dropLast, 1)
    else (raw, 0)
  | [] => (raw, 0)

/-- The attribute that a token at an offset spells. -/
def ofToken? (token : List Char) (offset : Nat) : Except OffsetError (Option Attribute) := do
  let key := token.takeWhile (· ≠ '=')
  if key.isEmpty || key = ['/'] then return none
  let keyStop ← Offset.add offset (width key)
  let keySpan : Span := ⟨offset, keyStop⟩
  match token.dropWhile (· ≠ '=') with
  | [] => return some ⟨String.ofList key, keySpan, none⟩
  | _ :: raw =>
    let rawStart ← Offset.add keyStop 1
    let (inner, skipped) := unquote raw
    let start ← Offset.add rawStart skipped
    let stop ← Offset.add start (width inner)
    return some ⟨String.ofList key, keySpan, some ⟨String.ofList inner, ⟨start, stop⟩⟩⟩

/-- The attributes of an attribute text that starts at byte `base`. -/
def parse (base : Nat) (text : List Char) : Except OffsetError (List Attribute) := do
  let attributes ← (tokens 0 text).mapM fun (start, token) => do
    let offset ← Offset.add base start
    ofToken? token offset
  return attributes.filterMap id

end Attribute

end SfcIndex.Markup
