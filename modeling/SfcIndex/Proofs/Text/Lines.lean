import Mathlib.Data.List.Induction
import SfcIndex.Proofs.Text.Place
import SfcIndex.Text.Lines

/-! # Lines of a text, character by character

`Ruled` says which lines of a text have ended and what the last line holds so far, as the text is
written down. The position of an offset is read off the lines in front of it, and it leads back to
the offset unless the offset lies behind the carriage return that ends a line
(`Text.OnLine.offset?_position`).
-/

namespace SfcIndex.Text

/-- The lines of a text that have ended, and the line that a next character would go on. -/
inductive Ruled : List Char → List (List Char) → List Char → Prop
  | start : Ruled [] [] []
  | char {text last : List Char} {ended : List (List Char)} {c : Char} (other : c ≠ '\n')
      (ruled : Ruled text ended last) : Ruled (text ++ [c]) ended (last ++ [c])
  | feed {text last : List Char} {ended : List (List Char)} (ruled : Ruled text ended last) :
      Ruled (text ++ ['\n']) (ended ++ [last]) []

/-- Every text is cut into lines. -/
theorem exists_ruled (text : List Char) : ∃ ended last, Ruled text ended last := by
  induction text using List.reverseRecOn with
  | nil => exact ⟨[], [], .start⟩
  | append_singleton front c ih =>
    obtain ⟨ended, last, ruled⟩ := ih
    by_cases feed : c = '\n'
    · subst feed
      exact ⟨_, _, ruled.feed⟩
    · exact ⟨_, _, ruled.char feed⟩

/-- The bytes of lines that have ended, with their line feeds. -/
def endedWidth (ended : List (List Char)) : Nat :=
  ended.foldr (fun line total => width line + 1 + total) 0

theorem endedWidth_cons (line : List Char) (more : List (List Char)) :
    endedWidth (line :: more) = width line + 1 + endedWidth more := rfl

theorem endedWidth_append (first second : List (List Char)) :
    endedWidth (first ++ second) = endedWidth first + endedWidth second := by
  induction first with
  | nil => exact (Nat.zero_add _).symm
  | cons line more ih =>
    rw [List.cons_append, endedWidth_cons, endedWidth_cons, ih]
    omega

/-- A text has a line, even an empty one. -/
theorem lines_ne_nil (text : List Char) : lines text ≠ [] := by
  cases text with
  | nil => simp [lines]
  | cons c rest =>
    rw [lines]
    split
    · simp
    · split <;> simp

/-- A character that ends no line stands in front of the first one. -/
theorem lines_cons_of_ne {c : Char} (other : c ≠ '\n') {rest first : List Char}
    {more : List (List Char)} (split : lines rest = first :: more) :
    lines (c :: rest) = (c :: first) :: more := by
  rw [lines, if_neg other, split]

theorem lines_cons_feed (rest : List Char) : lines ('\n' :: rest) = [] :: lines rest := by
  rw [lines, if_pos rfl]

/-- Of a text from a place on, the characters are taken that start before the bytes left. -/
theorem startingBefore_append (before after : List Char) (bytes : Nat) :
    startingBefore (width before + bytes) (before ++ after) =
      before ++ startingBefore bytes after := by
  induction before with
  | nil => rw [width_nil, Nat.zero_add, List.nil_append, List.nil_append]
  | cons c rest ih =>
    have positive := c.utf8Size_pos
    obtain ⟨more, size⟩ : ∃ more, width (c :: rest) + bytes = more + 1 :=
      ⟨c.utf8Size + width rest + bytes - 1, by rw [width_cons]; omega⟩
    have left : more + 1 - c.utf8Size = width rest + bytes := by
      rw [← size, width_cons, Nat.add_assoc, Nat.add_sub_cancel_left]
    rw [size, List.cons_append, startingBefore, left, ih, List.cons_append]

/-- The characters that start before a boundary are those in front of it. -/
theorem startingBefore_width (before after : List Char) :
    startingBefore (width before) (before ++ after) = before := by
  have none : startingBefore 0 after = [] := by rw [startingBefore]
  rw [← Nat.add_zero (width before), startingBefore_append, none, List.append_nil]

namespace Ruled

variable {text last : List Char} {ended : List (List Char)}

/-- The lines in front of a place stay the same, and the line at the place goes on. -/
theorem lines_append (ruled : Ruled text ended last) {rest first : List Char}
    {more : List (List Char)} (split : lines rest = first :: more) :
    lines (text ++ rest) = ended ++ (last ++ first) :: more := by
  induction ruled generalizing rest first more with
  | start => exact split
  | char other _ ih =>
    rw [List.append_assoc, List.singleton_append, ih (lines_cons_of_ne other split),
      List.append_assoc, List.singleton_append]
  | feed _ ih =>
    have feed := lines_cons_feed rest
    rw [split] at feed
    rw [List.append_assoc, List.singleton_append, ih feed, List.append_nil, List.append_assoc,
      List.singleton_append, List.nil_append]

/-- Going through a text ends on the line and behind the characters that it was read to. -/
theorem foldl_step (ruled : Ruled text ended last) :
    text.foldl Position.step ⟨0, 0⟩ = ⟨ended.length, last.length⟩ := by
  induction ruled with
  | start => rfl
  | char other _ ih =>
    rw [List.foldl_append, ih, List.foldl_cons, List.foldl_nil, Position.step, if_neg other,
      List.length_append, List.length_singleton]
  | feed _ ih =>
    rw [List.foldl_append, ih, List.foldl_cons, List.foldl_nil, Position.step, if_pos rfl,
      List.length_append, List.length_singleton, List.length_nil]

/-- A text is as wide as its ended lines and its last one. -/
theorem width_eq (ruled : Ruled text ended last) : width text = endedWidth ended + width last := by
  induction ruled with
  | start => rfl
  | char _ _ ih => rw [width_append, width_append, ih, Nat.add_assoc]
  | @feed text last ended _ ih =>
    have line : endedWidth [last] = width last + 1 := rfl
    have feed : width ['\n'] = 1 := rfl
    rw [width_append, endedWidth_append, ih, line, feed, width_nil]
    omega

/-- The last line ends the text. -/
theorem last_suffix (ruled : Ruled text ended last) : last <:+ text := by
  induction ruled with
  | start => exact List.suffix_refl []
  | @char text last ended c other _ ih =>
    obtain ⟨front, whole⟩ := ih
    exact ⟨front, by rw [← whole, List.append_assoc]⟩
  | feed _ _ => exact List.nil_suffix

/-- A line and a column are no larger than the bytes in front of them. -/
theorem size_le (ruled : Ruled text ended last) : ended.length + last.length ≤ width text := by
  induction ruled with
  | start => exact Nat.le_refl _
  | @char text last ended c _ _ ih =>
    have positive := c.utf8Size_pos
    rw [width_append, List.length_append, List.length_singleton, width_cons, width_nil]
    omega
  | feed _ ih =>
    have feed : width ['\n'] = 1 := rfl
    rw [width_append, List.length_append, List.length_singleton, List.length_nil, feed]
    omega

/-- The position of a place in a text. -/
theorem position_eq (ruled : Ruled text ended last) (after : List Char) :
    position (text ++ after) (width text) = ⟨ended.length, last.length⟩ := by
  rw [position, startingBefore_width, ruled.foldl_step]

end Ruled

/-- The offset is a place in the text that does not lie between the carriage return that ends a
line and the end of that line. -/
def OnLine (text : List Char) (offset : Nat) : Prop :=
  ∃ before after, text = before ++ after ∧ width before = offset ∧
    (before.getLast? = some '\r' → ∃ c ∈ after.head?, c ≠ '\n')

namespace OnLine

variable {text part : List Char} {offset : Nat}

/-- The place of a character other than a line feed is on a line. -/
theorem of_next {c : Char} (stands : StandsAt text offset (c :: part)) (other : c ≠ '\n') :
    OnLine text offset := by
  obtain ⟨before, after, rfl, rfl⟩ := stands
  exact ⟨before, _, rfl, rfl, fun _ => ⟨c, rfl, other⟩⟩

/-- The place behind a character other than a carriage return is on a line. -/
theorem of_last {c : Char} (stands : StandsAt text offset (part ++ [c])) (other : c ≠ '\r') :
    OnLine text (offset + width (part ++ [c])) := by
  obtain ⟨before, after, rfl, rfl⟩ := stands
  refine ⟨before ++ (part ++ [c]), after, by simp, by simp, ?_⟩
  rw [← List.append_assoc, List.getLast?_concat]
  intro ends
  exact absurd (Option.some.inj ends) other

/-- The columns of the line at a place go on to the place at least. -/
theorem take_withoutReturn {last first : List Char}
    (ends : last.getLast? = some '\r' → first ≠ []) :
    last.length ≤ (withoutReturn (last ++ first)).length ∧
      (withoutReturn (last ++ first)).take last.length = last := by
  unfold withoutReturn
  split
  · next return_ =>
    -- The carriage return is cut off, so it must not be the last character before the place.
    have some : first ≠ [] := by
      intro none
      rw [none, List.append_nil] at return_
      exact ends return_ none
    rw [List.dropLast_append_of_ne_nil some]
    exact ⟨by rw [List.length_append]; omega, List.take_left⟩
  · exact ⟨by rw [List.length_append]; omega, List.take_left⟩

/-- A line that ends at once is at the end of the text or of a line. -/
theorem head?_of_lines {after : List Char} {more : List (List Char)}
    (split : lines after = [] :: more) : ∀ c ∈ after.head?, c = '\n' := by
  intro c is
  obtain ⟨rest, rfl⟩ := List.head?_eq_some_iff.1 is
  by_contra other
  obtain ⟨first, others, lines_eq⟩ := List.exists_cons_of_ne_nil (lines_ne_nil rest)
  rw [lines_cons_of_ne other lines_eq] at split
  cases split

/-- The position of an offset leads back to the offset. -/
theorem offset?_position (place : OnLine text offset) :
    offset? text (position text offset) = some offset := by
  obtain ⟨before, after, rfl, rfl, ends⟩ := place
  obtain ⟨ended, last, ruled⟩ := exists_ruled before
  obtain ⟨first, more, split⟩ := List.exists_cons_of_ne_nil (lines_ne_nil after)
  have goesOn : last.getLast? = some '\r' → first ≠ [] := by
    rintro return_ rfl
    obtain ⟨front, rfl⟩ := ruled.last_suffix
    obtain ⟨c, is, other⟩ := ends (by rw [List.getLast?_append, return_]; rfl)
    exact other (head?_of_lines split c is)
  obtain ⟨reaches, columns⟩ := take_withoutReturn goesOn
  have line : (lines (before ++ after))[ended.length]? = some (last ++ first) := by
    rw [ruled.lines_append split, List.getElem?_append_right (Nat.le_refl _), Nat.sub_self]
    rfl
  have front : (lines (before ++ after)).take ended.length = ended := by
    rw [ruled.lines_append split]
    exact List.take_left
  rw [ruled.position_eq, offset?]
  simp only [line, Option.bind_eq_bind, Option.bind_some]
  rw [if_pos reaches, front, columns, ruled.width_eq]
  rfl

/-- A line and a column are no larger than the text. -/
theorem position_le (place : OnLine text offset) :
    (position text offset).line ≤ width text ∧ (position text offset).character ≤ width text := by
  obtain ⟨before, after, rfl, rfl, -⟩ := place
  obtain ⟨ended, last, ruled⟩ := exists_ruled before
  have size := ruled.size_le
  rw [ruled.position_eq, width_append]
  exact ⟨by dsimp only; omega, by dsimp only; omega⟩

end OnLine

end SfcIndex.Text
