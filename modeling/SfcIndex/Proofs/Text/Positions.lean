import Mathlib.Data.Prod.Lex
import Mathlib.Order.Monotone.Defs
import SfcIndex.Proofs.Bytes.Access
import SfcIndex.Proofs.Text.Lines

/-! # Positions and offsets

The places between the characters of a text, in their order, and the positions of the text, line by
line, stand for each other. Only the place behind the carriage return that ends a line has a
position which leads to no offset (`Text.position_offset?_inverse`).
-/

namespace SfcIndex

namespace Position

/-- Positions come in the order of lines, and on a line in the order of characters. -/
def lex (place : Position) : Lex (Nat × Nat) := toLex (place.line, place.character)

/-- Positions are ordered by lines, and on a line by characters. -/
theorem lex_lt_iff {first second : Position} :
    first.lex < second.lex ↔
      first.line < second.line ∨
        first.line = second.line ∧ first.character < second.character :=
  Prod.Lex.toLex_lt_toLex

/-- Every character leads to a later position. -/
theorem lex_lt_step (place : Position) (c : Char) : place.lex < (place.step c).lex := by
  rw [lex_lt_iff, step]
  split
  · exact .inl (Nat.lt_succ_self _)
  · exact .inr ⟨rfl, Nat.lt_succ_self _⟩

/-- Going on through a text leads to later positions. -/
theorem lex_lt_foldl_step (place : Position) {chars : List Char} (some : chars ≠ []) :
    place.lex < (chars.foldl step place).lex := by
  induction chars generalizing place with
  | nil => exact absurd rfl some
  | cons c rest ih =>
    have first := place.lex_lt_step c
    rw [List.foldl_cons]
    by_cases last : rest = []
    · rwa [last]
    · exact first.trans (ih (place.step c) last)

end Position

namespace Text

/-- The offset is a place between two characters of the text, or one of its ends. -/
def IsBoundary (text : List Char) (offset : Nat) : Prop := (splitAt? offset text).isSome = true

instance (text : List Char) (offset : Nat) : Decidable (IsBoundary text offset) :=
  inferInstanceAs (Decidable (_ = true))

/-- A boundary is the width of the text in front of it. -/
theorem isBoundary_iff {text : List Char} {offset : Nat} :
    IsBoundary text offset ↔ ∃ before after, text = before ++ after ∧ width before = offset := by
  constructor
  · intro boundary
    obtain ⟨⟨before, after⟩, split⟩ := Option.isSome_iff_exists.1 boundary
    exact ⟨before, after, splitAt?_eq_some split⟩
  · rintro ⟨before, after, rfl, rfl⟩
    rw [IsBoundary, splitAt?_width]
    rfl

/-- There is a boundary wherever a text is cut in two. -/
theorem isBoundary_width (before after : List Char) :
    IsBoundary (before ++ after) (width before) :=
  isBoundary_iff.2 ⟨before, after, rfl, rfl⟩

/-- The offset is the end of a line, and the byte before it is a carriage return. -/
def EndsReturn (text : List Char) (offset : Nat) : Prop :=
  ((Bytes.encode text)[offset]? = some (Bytes.byteOf '\n') ∨ offset = width text) ∧
    0 < offset ∧ (Bytes.encode text)[offset - 1]? = some (Bytes.byteOf '\r')

instance (text : List Char) (offset : Nat) : Decidable (EndsReturn text offset) :=
  inferInstanceAs (Decidable (_ ∧ _))

section

variable (before after : List Char)

/-- A line ends where the text ends or a line feed comes next. -/
theorem lineEnds_iff :
    ((Bytes.encode (before ++ after))[width before]? = some (Bytes.byteOf '\n') ∨
        width before = width (before ++ after)) ↔
      ∀ c ∈ after.head?, c = '\n' := by
  have on : Bytes.On (before ++ after) ⟨width before, after⟩ := ⟨before, rfl, rfl⟩
  rw [on.getElem?_eq, Bytes.head?_encode_eq_some_iff (by decide), width_append]
  cases after with
  | nil => simp
  | cons c rest =>
    have positive := c.utf8Size_pos
    have inside : ¬ width before = width before + width (c :: rest) := by
      rw [width_cons]
      omega
    rw [or_iff_left inside]
    simp

/-- The byte in front of a boundary is a carriage return when the last character is one. -/
theorem returnBefore_iff :
    (0 < width before ∧
        (Bytes.encode (before ++ after))[width before - 1]? = some (Bytes.byteOf '\r')) ↔
      before.getLast? = some '\r' := by
  rcases List.eq_nil_or_concat before with rfl | ⟨front, last, rfl⟩
  · simp
  · rw [List.concat_eq_append, List.getLast?_concat, List.append_assoc, List.singleton_append]
    have on : Bytes.On (front ++ last :: after) ⟨width front, last :: after⟩ := ⟨front, rfl, rfl⟩
    obtain ⟨byte, member, read⟩ := on.exists_lastByte
    have positive := last.utf8Size_pos
    have stop : width (front ++ [last]) = width front + last.utf8Size := by simp
    have same : byte = Bytes.byteOf '\r' ↔ last = '\r' := by
      have bytewise := Bytes.follows_beq (d := '\r') (by decide) last byte member
      rwa [Bool.eq_iff_iff, beq_iff_eq, beq_iff_eq] at bytewise
    rw [stop, Bytes.getElem?_of_byteAt read, Option.some.injEq, Option.some.injEq, same]
    exact and_iff_right (by omega)

/-- A line ends behind a carriage return where that is its last character. -/
theorem endsReturn_iff :
    EndsReturn (before ++ after) (width before) ↔
      (∀ c ∈ after.head?, c = '\n') ∧ before.getLast? = some '\r' := by
  rw [EndsReturn, lineEnds_iff, returnBefore_iff]

end

namespace Ruled

variable {text last : List Char} {ended : List (List Char)}

/-- The lines of a text are the ended ones and the last one. -/
theorem lines_eq (ruled : Ruled text ended last) : lines text = ended ++ [last] := by
  have none : lines [] = [[]] := rfl
  have whole := ruled.lines_append none
  rwa [List.append_nil, List.append_nil] at whole

/-- The start of a line is reached when the text is written down. -/
theorem exists_cut (ruled : Ruled text ended last) {number : Nat} {line front : List Char}
    (found : (ended ++ [last])[number]? = some line) (begins : front <+: line) :
    ∃ before after, text = before ++ after ∧
      Ruled before ((ended ++ [last]).take number) front := by
  induction ruled generalizing number line front with
  | start =>
    obtain rfl : number = 0 := by
      have := (List.getElem?_eq_some_iff.1 found).1
      simpa using this
    cases found
    rw [List.prefix_nil.1 begins]
    exact ⟨[], [], rfl, .start⟩
  | @char text last ended c other ruled ih =>
    by_cases earlier : number < ended.length
    · rw [List.getElem?_append_left earlier] at found
      obtain ⟨before, after, rfl, cut⟩ :=
        ih (by rwa [List.getElem?_append_left earlier]) begins
      refine ⟨before, after ++ [c], by rw [List.append_assoc], ?_⟩
      rwa [List.take_append_of_le_length earlier.le] at cut ⊢
    · obtain rfl : number = ended.length := by
        have := (List.getElem?_eq_some_iff.1 found).1
        rw [List.length_append, List.length_singleton] at this
        omega
      rw [List.getElem?_concat_length] at found
      cases found
      rw [List.take_left]
      rcases List.prefix_concat_iff.1 begins with rfl | shorter
      · exact ⟨text ++ [c], [], by simp, ruled.char other⟩
      · obtain ⟨before, after, rfl, cut⟩ := ih List.getElem?_concat_length shorter
        rw [List.take_left] at cut
        exact ⟨before, after ++ [c], by rw [List.append_assoc], cut⟩
  | @feed text last ended ruled ih =>
    by_cases earlier : number < (ended ++ [last]).length
    · rw [List.getElem?_append_left earlier] at found
      obtain ⟨before, after, rfl, cut⟩ := ih found begins
      refine ⟨before, after ++ ['\n'], by rw [List.append_assoc], ?_⟩
      rwa [List.take_append_of_le_length earlier.le]
    · obtain rfl : number = (ended ++ [last]).length := by
        have := (List.getElem?_eq_some_iff.1 found).1
        rw [List.length_append, List.length_singleton] at this
        omega
      rw [List.getElem?_concat_length] at found
      cases found
      rw [List.prefix_nil.1 begins, List.take_left]
      exact ⟨text ++ ['\n'], [], by simp, ruled.feed⟩

end Ruled

/-- A line without its carriage return is the start of it. -/
theorem withoutReturn_begins (line : List Char) : withoutReturn line <+: line := by
  unfold withoutReturn
  split
  · exact List.dropLast_prefix line
  · exact List.prefix_refl line

/-- The offset of a position is a place between characters, and it has that position. -/
theorem position_of_offset? {text : List Char} {place : Position} {offset : Nat}
    (found : offset? text place = some offset) :
    IsBoundary text offset ∧ position text offset = place := by
  obtain ⟨ended, last, ruled⟩ := exists_ruled text
  rw [offset?, Option.bind_eq_bind, Option.bind_eq_some_iff] at found
  obtain ⟨line, numbered, found⟩ := found
  dsimp only at found
  split at found
  next reaches =>
    have taken := List.take_prefix place.character (withoutReturn line)
    have begins := taken.trans (withoutReturn_begins line)
    have below := (List.getElem?_eq_some_iff.1 numbered).1
    rw [ruled.lines_eq] at numbered found below
    obtain ⟨before, after, rfl, cut⟩ := ruled.exists_cut numbered begins
    have size : width before = offset := cut.width_eq.trans (Option.some.inj found)
    rw [← size]
    refine ⟨isBoundary_width before after, ?_⟩
    rw [cut.position_eq, List.length_take_of_le reaches, List.length_take_of_le below.le]
  next => cases found

/-- The position behind the carriage return that ends a line leads to no offset. -/
theorem offset?_eq_none {before after : List Char} (ends : ∀ c ∈ after.head?, c = '\n')
    (return_ : before.getLast? = some '\r') :
    offset? (before ++ after) (position (before ++ after) (width before)) = none := by
  obtain ⟨ended, last, ruled⟩ := exists_ruled before
  obtain ⟨more, split⟩ : ∃ more, lines after = [] :: more := by
    cases after with
    | nil => exact ⟨[], rfl⟩
    | cons c rest =>
      rw [ends c rfl]
      exact ⟨lines rest, lines_cons_feed rest⟩
  -- The carriage return is on the line of the place, since it is no line feed.
  have onLine : last.getLast? = some '\r' := by
    cases ruled with
    | start => cases return_
    | char other ruled =>
      rw [List.getLast?_concat] at return_ ⊢
      exact return_
    | feed ruled =>
      rw [List.getLast?_concat] at return_
      cases return_
  have line : (lines (before ++ after))[ended.length]? = some last := by
    rw [ruled.lines_append split, List.append_nil, List.getElem?_append_right (Nat.le_refl _),
      Nat.sub_self]
    rfl
  have shorter : ¬ last.length ≤ (withoutReturn last).length := by
    have some : 0 < last.length := List.length_pos_of_mem (List.mem_of_mem_getLast? onLine)
    rw [withoutReturn, if_pos onLine, List.length_dropLast]
    omega
  rw [ruled.position_eq, offset?]
  simp only [line, Option.bind_eq_bind, Option.bind_some]
  rw [if_neg shorter]

/-- The position of a place between characters leads back to the place, unless the place lies
behind the carriage return that ends a line. -/
theorem offset?_position {text : List Char} {offset : Nat} (boundary : IsBoundary text offset) :
    offset? text (position text offset) =
      if EndsReturn text offset then none else some offset := by
  obtain ⟨before, after, rfl, rfl⟩ := isBoundary_iff.1 boundary
  by_cases ends : EndsReturn (before ++ after) (width before)
  · obtain ⟨feed, return_⟩ := (endsReturn_iff before after).1 ends
    rw [if_pos ends, offset?_eq_none feed return_]
  · rw [if_neg ends]
    apply OnLine.offset?_position
    refine ⟨before, after, rfl, rfl, ?_⟩
    intro return_
    by_contra none
    push Not at none
    exact ends ((endsReturn_iff before after).2 ⟨none, return_⟩)

/-- Later places have later positions. -/
theorem strictMonoOn_position (text : List Char) :
    StrictMonoOn (fun offset => (position text offset).lex) {offset | IsBoundary text offset} := by
  intro first isFirst second isSecond earlier
  obtain ⟨before, after, whole, rfl⟩ := isBoundary_iff.1 isFirst
  obtain ⟨before', after', rfl, rfl⟩ := isBoundary_iff.1 isSecond
  obtain ⟨between, rfl, rfl⟩ := exists_of_width_le whole earlier.le
  have some : between ≠ [] := by
    rintro rfl
    rw [List.append_nil] at earlier
    exact Nat.lt_irrefl _ earlier
  dsimp only
  rw [position, position, startingBefore_width, whole, startingBefore_width, List.foldl_append]
  exact Position.lex_lt_foldl_step _ some

/-- Offsets and positions are each other's inverses and keep the order. The one exception is the
place behind the carriage return that ends a line, whose position leads to no offset. -/
theorem position_offset?_inverse (text : List Char) :
    (∀ place offset, offset? text place = some offset →
      IsBoundary text offset ∧ position text offset = place) ∧
    (∀ offset, IsBoundary text offset →
      offset? text (position text offset) =
        if EndsReturn text offset then none else some offset) ∧
    StrictMonoOn (fun offset => (position text offset).lex) {offset | IsBoundary text offset} := by
  refine ⟨?_, ?_, strictMonoOn_position text⟩
  · intro place offset found
    exact position_of_offset? found
  · intro offset boundary
    exact offset?_position boundary

/-- So it is where two carriage returns end a line: the place between them has an offset, the place
behind them has none. -/
theorem position_offset?_inverse_returns :
    let text := "é\r\r\n\nx".toList
    (offset? text ⟨0, 2⟩ = some 3 ∧ IsBoundary text 3 ∧ position text 3 = ⟨0, 2⟩) ∧
      (IsBoundary text 4 ∧ EndsReturn text 4 ∧ offset? text (position text 4) = none) ∧
      (position text 3).lex < (position text 4).lex := by
  intro text
  have found : offset? text ⟨0, 2⟩ = some 3 := by decide
  have between : IsBoundary text 3 := by decide
  have behind : IsBoundary text 4 := by decide
  have ends : EndsReturn text 4 := by decide
  obtain ⟨places, offsets, increasing⟩ := position_offset?_inverse text
  refine ⟨⟨found, places ⟨0, 2⟩ 3 found⟩, ⟨behind, ends, ?_⟩, ?_⟩
  · rw [offsets 4 behind, if_pos ends]
  · exact increasing between behind (by decide)

end Text

end SfcIndex
