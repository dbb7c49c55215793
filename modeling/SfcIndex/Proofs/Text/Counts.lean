import Mathlib.Data.Nat.Count
import SfcIndex.Proofs.Text.Positions

/-! # What a position counts

The line of an offset is the number of line feeds in the bytes before it. Its character is the
number of characters of that line that start before it (`Text.position_counts`). An offset inside of
a character counts that character too, and so its position is not the one of the character's first
byte (`Text.position_inside_character`).
-/

namespace SfcIndex.Text

/-- The offset where a line of a text starts. -/
def lineStart (text : List Char) (number : Nat) : Nat := endedWidth ((lines text).take number)

/-- The bytes of a character of a line that starts at an offset. -/
def charSpan (start : Nat) (line : List Char) (index : Nat) : Span :=
  ⟨start + width (line.take index), start + width (line.take (index + 1))⟩

/-- Where the numbers below a threshold, and no others, pass a test, the threshold is their count. -/
theorem count_eq_of_threshold {test : Nat → Prop} [DecidablePred test] {few all : Nat}
    (within : few ≤ all) (passes : ∀ i < few, test i)
    (fails : ∀ i, few ≤ i → i < all → ¬ test i) : Nat.count test all = few := by
  obtain ⟨more, rfl⟩ := Nat.exists_eq_add_of_le within
  have later : Nat.count (fun i => test (few + i)) more = 0 :=
    Nat.count_of_forall_not fun i small => fails _ (Nat.le_add_right _ _) (by omega)
  rw [Nat.count_add, Nat.count_of_forall passes, later, Nat.add_zero]

section Line

variable {line : List Char} {few bytes : Nat}

/-- Of more characters the width is not smaller. -/
theorem width_take_mono (line : List Char) {first second : Nat} (earlier : first ≤ second) :
    width (line.take first) ≤ width (line.take second) := by
  obtain ⟨more, same⟩ := List.take_prefix_take_left earlier (l := line)
  rw [← same, width_append]
  exact Nat.le_add_right _ _

/-- Of more characters the width is larger, as long as there are more. -/
theorem width_take_lt {first second : Nat} (earlier : first < second)
    (within : first < line.length) : width (line.take first) < width (line.take second) := by
  have next := width_take_mono line (Nat.succ_le_of_lt earlier)
  have positive := (line.get ⟨first, within⟩).utf8Size_pos
  have step : line.take (first + 1) = line.take first ++ [line.get ⟨first, within⟩] := by
    rw [List.take_succ_eq_append_getElem within]
    rfl
  rw [Nat.succ_eq_add_one, step, width_append, width_cons] at next
  omega

/-- The characters of a line that start before an offset. -/
theorem count_started (start : Nat) (within : few ≤ line.length)
    (reached : ∀ i < few, width (line.take i) < bytes) (stops : bytes ≤ width (line.take few)) :
    Nat.count (fun i => (charSpan start line i).start < start + bytes) line.length = few := by
  apply count_eq_of_threshold within
  · intro i small
    exact Nat.add_lt_add_left (reached i small) start
  · intro i large _
    have later := width_take_mono line large
    dsimp only [charSpan]
    omega

/-- The characters of a line that lie completely before an offset. -/
theorem count_finished (start : Nat) (within : few ≤ line.length)
    (reached : width (line.take few) ≤ bytes)
    (stops : few < line.length → bytes < width (line.take (few + 1))) :
    Nat.count (fun i => (charSpan start line i).stop ≤ start + bytes) line.length = few := by
  apply count_eq_of_threshold within
  · intro i small
    have earlier : width (line.take (i + 1)) ≤ width (line.take few) := width_take_mono line small
    dsimp only [charSpan]
    omega
  · intro i large small
    have later : width (line.take (few + 1)) ≤ width (line.take (i + 1)) :=
      width_take_mono line (Nat.succ_le_succ large)
    have beyond := stops (Nat.lt_of_le_of_lt large small)
    dsimp only [charSpan]
    omega

end Line

/-- An offset in a text lies between two characters or inside of one. -/
theorem boundary_or_inside (text : List Char) {reached : Nat} (within : reached ≤ width text) :
    (∃ before after, text = before ++ after ∧ reached = width before) ∨
      ∃ before c after bytes, text = before ++ c :: after ∧ reached = width before + bytes ∧
        0 < bytes ∧ bytes < c.utf8Size := by
  induction text generalizing reached with
  | nil => exact .inl ⟨[], [], rfl, Nat.le_zero.1 within⟩
  | cons c rest ih =>
    rw [width_cons] at within
    by_cases zero : reached = 0
    · exact .inl ⟨[], c :: rest, rfl, zero⟩
    by_cases first : reached < c.utf8Size
    · exact .inr ⟨[], c, rest, reached, rfl, (Nat.zero_add _).symm, Nat.pos_of_ne_zero zero, first⟩
    obtain ⟨later, rfl⟩ := Nat.exists_eq_add_of_le (Nat.le_of_not_lt first)
    rcases ih (Nat.le_of_add_le_add_left within) with
      ⟨before, after, rfl, rfl⟩ | ⟨before, d, after, bytes, rfl, rfl, some, few⟩
    · exact .inl ⟨c :: before, after, rfl, rfl⟩
    · exact .inr ⟨c :: before, d, after, bytes, rfl, (Nat.add_assoc _ _ _).symm, some, few⟩

section Inside

variable {before after : List Char} {c : Char} {bytes : Nat}

/-- There is no boundary inside the bytes of a character. -/
theorem not_isBoundary_of_inside (some : 0 < bytes) (few : bytes < c.utf8Size) :
    ¬ IsBoundary (before ++ c :: after) (width before + bytes) := by
  intro boundary
  obtain ⟨before', after', whole, size⟩ := isBoundary_iff.1 boundary
  obtain ⟨between, rfl, split⟩ := exists_of_width_le whole.symm (by omega)
  rw [width_append] at size
  cases between with
  | nil =>
    rw [width_nil] at size
    omega
  | cons d more =>
    cases split
    rw [width_cons] at size
    omega

/-- An offset inside of a character has the position of the end of the character. -/
theorem position_of_inside (some : 0 < bytes) (few : bytes < c.utf8Size) :
    position (before ++ c :: after) (width before + bytes) =
      position (before ++ c :: after) (width (before ++ [c])) := by
  have part : startingBefore bytes (c :: after) = [c] := by
    obtain ⟨more, rfl⟩ := Nat.exists_eq_succ_of_ne_zero some.ne'
    have none : more + 1 - c.utf8Size = 0 := by omega
    rw [startingBefore, none, startingBefore]
  have whole : before ++ c :: after = (before ++ [c]) ++ after := by simp
  rw [position, position, startingBefore_append, part, whole, startingBefore_width]

/-- Only a wide character has an inside. -/
theorem not_isAscii_of_inside (some : 0 < bytes) (few : bytes < c.utf8Size) :
    ¬ Bytes.IsAscii c := by
  intro ascii
  rw [Bytes.utf8Size_ascii ascii] at few
  omega

end Inside

/-- An offset past the end has the position of the end. -/
theorem position_min (text : List Char) (offset : Nat) :
    position text (min offset (width text)) = position text offset := by
  rcases Nat.le_total offset (width text) with inside | past
  · rw [Nat.min_eq_left inside]
  · obtain ⟨more, rfl⟩ := Nat.exists_eq_add_of_le past
    have none : startingBefore more [] = [] := by cases more <;> rw [startingBefore]
    have whole := startingBefore_append text [] more
    have full := startingBefore_width text []
    rw [List.append_nil] at whole full
    rw [Nat.min_eq_right past, position, position, whole, none, full, List.append_nil]

/-- As many lines are ended as there are line feeds. -/
theorem Ruled.length_eq_count {text last : List Char} {ended : List (List Char)}
    (ruled : Ruled text ended last) : ended.length = text.count '\n' := by
  induction ruled with
  | start => rfl
  | char other _ ih =>
    rw [List.count_append, List.count_singleton, ih, if_neg (by simpa using other), Nat.add_zero]
  | feed _ ih =>
    rw [List.length_append, List.length_singleton, List.count_append, List.count_singleton_self,
      ih]

/-- The line feeds in the bytes before an offset are those before the character it is in. -/
theorem count_take_encode {before after : List Char} {bytes : Nat}
    (part : bytes = 0 ∨ ∃ c rest, after = c :: rest ∧ 0 < bytes ∧ bytes < c.utf8Size) :
    ((Bytes.encode (before ++ after)).take (width before + bytes)).count (Bytes.byteOf '\n') =
      before.count '\n' := by
  have inside : ((Bytes.encode after).take bytes).count (Bytes.byteOf '\n') = 0 := by
    rcases part with rfl | ⟨c, rest, rfl, some, few⟩
    · rfl
    · have short : bytes ≤ (String.utf8EncodeChar c).length := by
        rw [String.length_utf8EncodeChar]
        exact few.le
      rw [Bytes.encode_cons, List.take_append_of_le_length short]
      exact Bytes.count_eq_zero_of_other (by decide) (not_isAscii_of_inside some few)
        (List.take_subset _ _)
  rw [Bytes.encode_append, ← Bytes.length_encode before, List.take_length_add_append,
    List.count_append, inside, Nat.add_zero, Bytes.count_encode (by decide)]

/-- What a position says about the bytes before an offset: the line feeds in them, and the
characters of the last line that start in them. All of these characters lie in those bytes
completely but for as many as are told. -/
structure Counts (text : List Char) (reached : Nat) (place : Position) (unfinished : Nat) : Prop
    where
  feeds : place.line = ((Bytes.encode text).take reached).count (Bytes.byteOf '\n')
  characters : ∃ line, (lines text)[place.line]? = some line ∧
    place.character = Nat.count
      (fun i => (charSpan (lineStart text place.line) line i).start < reached) line.length ∧
    place.character = Nat.count
      (fun i => (charSpan (lineStart text place.line) line i).stop ≤ reached) line.length +
        unfinished

section

variable {before after last first : List Char} {ended more : List (List Char)}

/-- The line that the first part of a text breaks off goes on in the second part. -/
theorem Ruled.getElem?_lines (ruled : Ruled before ended last)
    (split : lines after = first :: more) :
    (lines (before ++ after))[ended.length]? = some (last ++ first) ∧
      lineStart (before ++ after) ended.length = endedWidth ended := by
  rw [lineStart, ruled.lines_append split, List.take_left,
    List.getElem?_append_right (Nat.le_refl _), Nat.sub_self]
  exact ⟨rfl, rfl⟩

/-- At a boundary every character that a position counts is finished. -/
theorem counts_of_boundary (before after : List Char) :
    Counts (before ++ after) (width before) (position (before ++ after) (width before)) 0 := by
  obtain ⟨ended, last, ruled⟩ := exists_ruled before
  obtain ⟨first, more, split⟩ := List.exists_cons_of_ne_nil (lines_ne_nil after)
  obtain ⟨line, start⟩ := ruled.getElem?_lines split
  have within : last.length ≤ (last ++ first).length := by simp
  have taken : (last ++ first).take last.length = last := List.take_left
  rw [ruled.position_eq]
  refine ⟨?_, last ++ first, line, ?_, ?_⟩
  · exact ruled.length_eq_count.trans (count_take_encode (.inl rfl)).symm
  · rw [start, ruled.width_eq, count_started _ within]
    · intro i small
      have shorter := width_take_lt small (Nat.lt_of_lt_of_le small within)
      rwa [taken] at shorter
    · rw [taken]
  · rw [start, ruled.width_eq, count_finished _ within (by rw [taken]), Nat.add_zero]
    intro short
    have longer := width_take_lt (Nat.lt_succ_self _) short
    rwa [taken] at longer

/-- Inside a character a position counts this character, which is not finished. -/
theorem counts_of_inside {c : Char} {bytes : Nat} (some : 0 < bytes) (few : bytes < c.utf8Size) :
    Counts (before ++ c :: after) (width before + bytes)
      (position (before ++ c :: after) (width before + bytes)) 1 := by
  have other : c ≠ '\n' := by
    rintro rfl
    exact not_isAscii_of_inside some few (by decide)
  obtain ⟨ended, last, ruled⟩ := exists_ruled before
  obtain ⟨first, more, split⟩ := List.exists_cons_of_ne_nil (lines_ne_nil after)
  obtain ⟨line, start⟩ := ruled.getElem?_lines (lines_cons_of_ne other split)
  have place := (ruled.char other).position_eq after
  rw [List.append_assoc, List.singleton_append] at place
  have within : last.length + 1 ≤ (last ++ c :: first).length := by simp
  have taken : (last ++ c :: first).take last.length = last := List.take_left
  have takenNext : width ((last ++ c :: first).take (last.length + 1)) =
      width last + c.utf8Size := by
    rw [List.take_length_add_append, width_append]
    rfl
  rw [position_of_inside some few, place, List.length_append, List.length_singleton]
  refine ⟨?_, last ++ c :: first, line, ?_, ?_⟩
  · exact ruled.length_eq_count.trans (count_take_encode (.inr ⟨c, after, rfl, some, few⟩)).symm
  · rw [start, ruled.width_eq, Nat.add_assoc, count_started _ within]
    · intro i small
      have shorter := width_take_mono (last ++ c :: first) (Nat.le_of_lt_succ small)
      rw [taken] at shorter
      omega
    · rw [takenNext]
      omega
  · rw [start, ruled.width_eq, Nat.add_assoc, count_finished _ (Nat.le_of_succ_le within)]
    · rw [taken]
      omega
    · intro _
      rw [takenNext]
      omega

end

/-- The position of an offset counts the line feeds before the offset and the characters of the line
that start before it. All of these lie completely before the offset when it is a place between
characters; inside of a character they are one more, and the position is the one of the end of that
character. -/
theorem position_counts (text : List Char) (offset : Nat) :
    Counts text (min offset (width text)) (position text offset)
        (if IsBoundary text (min offset (width text)) then 0 else 1) ∧
      ∀ before c after, text = before ++ c :: after → width before < offset →
        offset < width (before ++ [c]) →
          position text offset = position text (width (before ++ [c])) := by
  refine ⟨?_, ?_⟩
  · rw [← position_min]
    rcases boundary_or_inside text (Nat.min_le_right offset (width text)) with
      ⟨before, after, rfl, place⟩ | ⟨before, c, after, bytes, rfl, place, some, few⟩
    · rw [place, if_pos (isBoundary_width before after)]
      exact counts_of_boundary before after
    · rw [place, if_neg (not_isBoundary_of_inside some few)]
      exact counts_of_inside some few
  · rintro before c after rfl some few
    obtain ⟨bytes, rfl⟩ := Nat.exists_eq_add_of_le some.le
    rw [width_append, width_cons, width_nil] at few
    exact position_of_inside (by omega) (by omega)

/-- Inside of a wide character, no character has ended, but one is counted: the position is not the
one of the character's first byte. -/
theorem position_inside_character :
    let text := ['é']
    ¬ IsBoundary text 1 ∧ (position text 1).line = 0 ∧
      (position text 1).character ≠
        Nat.count (fun i => (charSpan (lineStart text 0) text i).stop ≤ 1) text.length ∧
      position text 1 ≠ position text 0 := by
  decide

/-- So it is behind a line feed, inside of the second of two wide characters. -/
theorem position_counts_wide :
    let text := "a\nñ€b".toList
    "a\nñ".toList ++ '€' :: ['b'] = text ∧ width "a\nñ".toList < 5 ∧
      5 < width ("a\nñ".toList ++ ['€']) ∧ Counts text 5 (position text 5) 1 ∧
      position text 5 = position text 7 := by
  intro text
  have some : width "a\nñ".toList < 5 := by decide
  have few : 5 < width ("a\nñ".toList ++ ['€']) := by decide
  obtain ⟨counts, inside⟩ := position_counts text 5
  exact ⟨rfl, some, few, counts, inside "a\nñ".toList '€' ['b'] rfl some few⟩

end SfcIndex.Text
