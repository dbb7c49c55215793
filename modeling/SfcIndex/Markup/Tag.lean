import SfcIndex.Text.Ascii
import SfcIndex.Text.Cursor
import SfcIndex.Text.Span

/-! # Tags

A cursor moves forward over a text and stops at tags: `<name ...>`, `<name ... />` and `</name>`.
Everything between tags is skipped, and so are comments. `Cursor.skipRaw` jumps over content that
is no markup.
-/

namespace SfcIndex.Markup

open Text

/-- The three shapes of a tag. -/
inductive TagKind where
  /-- The tag that opens an element, `<name ...>`. -/
  | opening
  /-- An element of its own, `<name ... />`. -/
  | selfClosing
  /-- The tag that closes an element, `</name>`. -/
  | closing
  deriving Repr, DecidableEq

/-- A tag with its name as it is written and its place, from `<` through `>`. -/
structure Tag where
  kind : TagKind
  name : String
  span : Span
  /-- Between the name and the closing `>` or `/>`; empty at the name's end for a closing tag. -/
  attributeSpan : Span
  /-- The text of `attributeSpan`. -/
  attributeText : List Char
  deriving Repr, DecidableEq

/-- Whether a character can be part of a tag's name. -/
def isNameChar (c : Char) : Bool := c.isAlphanum || c = '-'

/-- What the search for the end of an opening tag has seen. -/
inductive CloseSearch where
  /-- Outside any value; the flag tells that nothing but blanks came after an `=`. -/
  | outside (afterEquals : Bool)
  /-- Inside a value that ends at the given quote. -/
  | quoted (quote : Char)
  deriving Repr, DecidableEq

namespace CloseSearch

/-- The state after one more character of an opening tag. A quote opens a value only after `=`. -/
def step : CloseSearch → Char → CloseSearch
  | outside afterEquals, c =>
    if c = '=' then outside true
    else if (c = '"' || c = '\'') && afterEquals then quoted c
    else if isAsciiBlank c then outside afterEquals
    else outside false
  | quoted quote, c => if c = quote then outside false else quoted quote

/-- Whether a character ends the opening tag. -/
def endsAt : CloseSearch → Char → Bool
  | outside _, c => c = '>'
  | quoted _, _ => false

theorem eq_of_endsAt {state : CloseSearch} {c : Char} (ends : state.endsAt c = true) : c = '>' := by
  cases state <;> simp_all [endsAt]

end CloseSearch

/-- The text up to the `>` that ends an opening tag, and the text after it. A `>` inside a quoted
value does not end the tag. -/
def splitAtClose? : CloseSearch → List Char → Option (List Char × List Char)
  | _, [] => none
  | state, c :: rest =>
    if state.endsAt c then some ([], rest)
    else (splitAtClose? (state.step c) rest).map fun (inside, after) => (c :: inside, after)

/-- The parts around the closing `>` make up the text. -/
theorem eq_of_splitAtClose? {state : CloseSearch} {text inside after : List Char}
    (split : splitAtClose? state text = some (inside, after)) : text = inside ++ '>' :: after := by
  induction text generalizing state inside with
  | nil => simp [splitAtClose?] at split
  | cons c rest ih =>
    rw [splitAtClose?] at split
    split at split
    next ends =>
      cases split
      simp [CloseSearch.eq_of_endsAt ends]
    next =>
      obtain ⟨⟨front, back⟩, found, same⟩ := Option.map_eq_some_iff.1 split
      cases same
      simp [ih found]

/-- The text without the blanks at its end. -/
def trimBlankEnd (text : List Char) : List Char :=
  (text.reverse.dropWhile isAsciiBlank).reverse

/-- The closing tag whose `<` is at `start`, read from the text after `</`. -/
def closingTag? (start : Nat) (text : List Char) : Option (Tag × Cursor) :=
  let name := text.takeWhile isNameChar
  let afterName := text.dropWhile isNameChar
  let nameStop := start + 2 + width name
  match afterName.dropWhile isAsciiBlank with
  | '>' :: rest =>
    let stop := nameStop + width (afterName.takeWhile isAsciiBlank) + 1
    some
      ({ kind := .closing
         name := String.ofList name
         span := ⟨start, stop⟩
         attributeSpan := .emptyAt nameStop
         attributeText := [] }, ⟨stop, rest⟩)
  | _ => none

theorem length_closingTag?_lt {start : Nat} {text : List Char} {tag : Tag} {next : Cursor}
    (found : closingTag? start text = some (tag, next)) : next.rest.length < text.length := by
  unfold closingTag? at found
  dsimp only at found
  split at found
  next rest ends =>
    have blanks := (List.dropWhile_suffix isAsciiBlank (l := text.dropWhile isNameChar)).length_le
    have name := (List.dropWhile_suffix isNameChar (l := text)).length_le
    rw [ends] at blanks
    cases found
    simp at blanks ⊢; omega
  next => simp at found

/-- Whether the text after a tag's name lets the name end there. -/
def endsName : List Char → Bool
  | [] => false
  | c :: _ => isAsciiBlank c || c = '>' || c = '/'

/-- The opening or self-closing tag whose `<` is at `start`, read from the text after `<`. -/
def openingTag? (start : Nat) (text : List Char) : Option (Tag × Cursor) :=
  let name := text.takeWhile isNameChar
  let afterName := text.dropWhile isNameChar
  if name.isEmpty || !endsName afterName then none
  else
    match splitAtClose? (.outside false) afterName with
    | none => none
    | some (inside, rest) =>
      let nameStop := start + 1 + width name
      let stop := nameStop + width inside + 1
      let trimmed := trimBlankEnd inside
      let closesItself := trimmed.getLast? = some '/'
      let attributeText := if closesItself then trimmed.dropLast else trimmed
      some
        ({ kind := if closesItself then .selfClosing else .opening
           name := String.ofList name
           span := ⟨start, stop⟩
           attributeSpan := ⟨nameStop, nameStop + width attributeText⟩
           attributeText := attributeText }, ⟨stop, rest⟩)

theorem length_openingTag?_lt {start : Nat} {text : List Char} {tag : Tag} {next : Cursor}
    (found : openingTag? start text = some (tag, next)) : next.rest.length < text.length := by
  unfold openingTag? at found
  dsimp only at found
  split at found
  next => simp at found
  next =>
    split at found
    next => simp at found
    next inside rest closes =>
      have whole := congrArg List.length (eq_of_splitAtClose? closes)
      have name := (List.dropWhile_suffix isNameChar (l := text)).length_le
      cases found
      simp at whole ⊢; omega

/-- The place after a comment, from the text after `<!--`. A comment without end runs to the end of
the text. -/
def pastComment (offset : Nat) : List Char → Cursor
  | [] => ⟨offset, []⟩
  | '-' :: '-' :: '>' :: rest => ⟨offset + 3, rest⟩
  | c :: rest => pastComment (offset + c.utf8Size) rest

theorem length_pastComment_le (offset : Nat) (text : List Char) :
    (pastComment offset text).rest.length ≤ text.length := by
  fun_induction pastComment offset text <;> grind

end SfcIndex.Markup

namespace SfcIndex.Text.Cursor

open Markup

/-- The next tag at or after a place, and the place after it. -/
def nextTag? (cursor : Cursor) : Option (Tag × Cursor) :=
  match cursor with
  | ⟨_, []⟩ => none
  | ⟨offset, '<' :: '!' :: '-' :: '-' :: rest⟩ => nextTag? (pastComment (offset + 4) rest)
  | ⟨offset, '<' :: '/' :: rest⟩ =>
    match closingTag? offset rest with
    | some found => some found
    | none => nextTag? ⟨offset + 1, '/' :: rest⟩
  | ⟨offset, '<' :: rest⟩ =>
    match openingTag? offset rest with
    | some found => some found
    | none => nextTag? ⟨offset + 1, rest⟩
  | ⟨offset, c :: rest⟩ => nextTag? ⟨offset + c.utf8Size, rest⟩
  termination_by cursor.rest.length
  decreasing_by
    all_goals simp
    have := length_pastComment_le (offset + 4) rest
    omega

/-- The place where a search without a tag ends: behind the last `<` that starts none or behind the
last comment, whichever comes later, or at `last` when there is neither. -/
def searched (last cursor : Cursor) : Cursor :=
  match cursor with
  | ⟨_, []⟩ => last
  | ⟨offset, '<' :: '!' :: '-' :: '-' :: rest⟩ =>
    searched (pastComment (offset + 4) rest) (pastComment (offset + 4) rest)
  | ⟨offset, '<' :: rest⟩ => searched ⟨offset + 1, rest⟩ ⟨offset + 1, rest⟩
  | ⟨offset, c :: rest⟩ => searched last ⟨offset + c.utf8Size, rest⟩
  termination_by cursor.rest.length
  decreasing_by
    all_goals simp
    have := length_pastComment_le (offset + 4) rest
    omega

/-- Whether the text is `</` and the name, ignoring ASCII case, with no further name character. -/
def atRawEnd (name : List Char) : List Char → Bool
  | '<' :: '/' :: rest =>
    asciiFold (rest.take name.length) == asciiFold name &&
      !((rest.drop name.length).head?.any isNameChar)
  | _ => false

/-- The place of the closing tag of an element whose content is no markup, or the end of the text
when there is none. -/
def skipRaw (name : List Char) (cursor : Cursor) : Cursor :=
  go cursor.offset cursor.rest
where
  /-- The first place at or after `offset` where the element may end. -/
  go (offset : Nat) : List Char → Cursor
    | [] => ⟨offset, []⟩
    | c :: rest =>
      if atRawEnd name (c :: rest) then ⟨offset, c :: rest⟩ else go (offset + c.utf8Size) rest

theorem length_skipRaw_le (name : List Char) (cursor : Cursor) :
    (cursor.skipRaw name).rest.length ≤ cursor.rest.length := by
  obtain ⟨offset, rest⟩ := cursor
  change (skipRaw.go name offset rest).rest.length ≤ rest.length
  induction rest generalizing offset with
  | nil => exact Nat.le_refl _
  | cons c rest ih =>
    rw [skipRaw.go]
    split
    · exact Nat.le_refl _
    · exact Nat.le_succ_of_le (ih _)

/-- Reading a tag leaves less text. -/
theorem length_nextTag?_lt {cursor next : Cursor} {tag : Tag}
    (found : cursor.nextTag? = some (tag, next)) : next.rest.length < cursor.rest.length := by
  fun_induction nextTag? cursor with
  | case1 => simp at found
  | case2 offset rest ih =>
    have shorter := length_pastComment_le (offset + 4) rest
    have := ih found
    simp; omega
  | case3 offset rest reading closed =>
    have := length_closingTag?_lt (closed.trans found)
    simp; omega
  | case4 offset rest closed ih =>
    have := ih found
    simp at this ⊢; omega
  | case5 offset rest _ _ reading opened =>
    have := length_openingTag?_lt (opened.trans found)
    simp; omega
  | case6 offset rest _ _ opened ih =>
    have := ih found
    simp at this ⊢; omega
  | case7 offset c rest _ _ _ ih =>
    have := ih found
    simp at this ⊢; omega

end SfcIndex.Text.Cursor
