import Mathlib.Tactic.Common
import SfcIndex.Text.Span

/-! # Parts of a text and their spans -/

namespace SfcIndex

open Text

namespace Text

/-- A text is cut where one of its parts ends. -/
theorem splitAt?_width (before after : List Char) :
    splitAt? (width before) (before ++ after) = some (before, after) := by
  induction before with
  | nil => cases after <;> rfl
  | cons c rest ih =>
    have positive := c.utf8Size_pos
    obtain ⟨bytes, size⟩ : ∃ bytes, width (c :: rest) = bytes + 1 :=
      ⟨c.utf8Size + width rest - 1, by rw [width_cons]; omega⟩
    have left : bytes + 1 - c.utf8Size = width rest := by
      rw [← size, width_cons, Nat.add_sub_cancel_left]
    have fits : c.utf8Size ≤ bytes + 1 := by
      rw [← size, width_cons]
      exact Nat.le_add_right _ _
    rw [size, List.cons_append, splitAt?, if_pos fits, left, ih]
    rfl

/-- Where a text is cut, nothing is lost. -/
theorem splitAt?_eq_some {bytes : Nat} {text before after : List Char}
    (split : splitAt? bytes text = some (before, after)) :
    text = before ++ after ∧ width before = bytes := by
  fun_induction splitAt? bytes text generalizing before with
  | case1 text =>
    cases split
    exact ⟨rfl, rfl⟩
  | case2 bytes => cases split
  | case3 bytes c rest fits ih =>
    obtain ⟨⟨front, back⟩, found, same⟩ := Option.map_eq_some_iff.1 split
    cases same
    obtain ⟨rfl, size⟩ := ih found
    refine ⟨rfl, ?_⟩
    rw [width_cons]
    omega
  | case4 bytes c rest long => cases split

/-- A text whose start passes a test is cut where the test first fails. -/
theorem takeWhile_dropWhile_append {test : Char → Bool} {front rest : List Char}
    (passes : ∀ c ∈ front, test c = true) (stops : ∀ c, rest.head? = some c → test c = false) :
    (front ++ rest).takeWhile test = front ∧ (front ++ rest).dropWhile test = rest := by
  rw [List.takeWhile_append_of_pos passes, List.dropWhile_append_of_pos passes]
  cases rest with
  | nil => simp
  | cons c rest => simp [stops c rfl]

/-- Only the empty text has no width. -/
theorem eq_nil_of_width {text : List Char} (none : width text = 0) : text = [] := by
  cases text with
  | nil => rfl
  | cons c rest =>
    have := c.utf8Size_pos
    rw [width_cons] at none
    omega

section Cuts

variable {front rest written after : List Char}

/-- Of two ways to cut a text, the later one leaves a part between them. -/
theorem exists_of_append_eq (same : front ++ rest = written ++ after)
    (later : ∀ more, written = front ++ more → more = []) :
    ∃ left, front = written ++ left ∧ after = left ++ rest := by
  rcases List.append_eq_append_iff.1 same with ⟨more, whole, tail⟩ | ⟨more, whole, tail⟩
  · have none := later more whole
    exact ⟨[], by rw [whole, none]; simp, by rw [tail, none]; rfl⟩
  · exact ⟨more, whole, tail⟩

/-- Of two cuts of a text, the one with the shorter rest goes on behind the other. -/
theorem exists_of_length_le (same : front ++ rest = written ++ after)
    (longer : rest.length ≤ after.length) :
    ∃ left, front = written ++ left ∧ after = left ++ rest := by
  refine exists_of_append_eq same fun more whole => ?_
  have := congrArg List.length same
  rw [whole, List.length_append, List.length_append, List.length_append] at this
  exact List.length_eq_zero_iff.1 (by omega)

/-- Of two cuts of a text, the one with the wider front goes on behind the other. -/
theorem exists_of_width_le (same : front ++ rest = written ++ after)
    (narrower : width written ≤ width front) :
    ∃ left, front = written ++ left ∧ after = left ++ rest := by
  refine exists_of_append_eq same fun more whole => eq_nil_of_width ?_
  rw [whole, width_append] at narrower
  omega

/-- Two cuts of a text at the same byte are the same. -/
theorem eq_of_width_eq (same : front ++ rest = written ++ after)
    (level : width written = width front) : front = written ∧ rest = after := by
  obtain ⟨left, rfl, rfl⟩ := exists_of_width_le same (Nat.le_of_eq level)
  have none : left = [] := eq_nil_of_width (by rw [width_append] at level; omega)
  simp [none]

end Cuts

end Text

namespace Span

/-- A span contains another one between its ends. -/
theorem contains_iff {outer inner : Span} :
    outer.contains inner = true ↔ outer.start ≤ inner.start ∧ inner.stop ≤ outer.stop := by
  simp [contains]

/-- The span of a part of a text covers that part. -/
theorem slice?_of_parts {span : Span} {text inside : List Char} (before after : List Char)
    (text_eq : text = before ++ (inside ++ after)) (start_eq : span.start = width before)
    (stop_eq : span.stop = span.start + width inside) : span.slice? text = some inside := by
  have length : span.stop - span.start = width inside := by omega
  unfold slice?
  rw [if_neg (by omega), length, start_eq, text_eq, splitAt?_width]
  simp only [Option.bind_eq_bind, Option.bind_some, splitAt?_width]
  rfl

/-- What a span covers of a text. -/
theorem slice?_eq_some_iff {span : Span} {text inside : List Char} :
    span.slice? text = some inside ↔
      ∃ before after, text = before ++ (inside ++ after) ∧ span.start = width before ∧
        span.stop = span.start + width inside := by
  constructor
  · intro covers
    unfold slice? at covers
    split at covers
    next => cases covers
    next forward =>
      simp only [Option.bind_eq_bind, Option.bind_eq_some_iff, Prod.exists] at covers
      obtain ⟨before, rest, first, part, after, second, same⟩ := covers
      cases same
      obtain ⟨rfl, start⟩ := splitAt?_eq_some first
      obtain ⟨rfl, size⟩ := splitAt?_eq_some second
      exact ⟨before, after, rfl, start.symm, by omega⟩
  · rintro ⟨before, after, text_eq, start_eq, stop_eq⟩
    exact slice?_of_parts before after text_eq start_eq stop_eq

/-- A span in the first of two texts covers nothing of the second. -/
theorem slice?_append_of_le {span : Span} {front : List Char} (inside : span.stop ≤ width front)
    (rest : List Char) : span.slice? (front ++ rest) = span.slice? front := by
  apply Option.ext
  intro part
  rw [slice?_eq_some_iff, slice?_eq_some_iff]
  constructor
  · rintro ⟨before, after, same, start, stop⟩
    have whole : front ++ rest = (before ++ part) ++ after := by rw [same, List.append_assoc]
    obtain ⟨left, rfl, -⟩ := exists_of_width_le whole (by rw [width_append]; omega)
    exact ⟨before, left, by rw [List.append_assoc], start, stop⟩
  · rintro ⟨before, after, rfl, start, stop⟩
    exact ⟨before, after ++ rest, by simp, start, stop⟩

/-- The span as many bytes later. -/
def move (bytes : Nat) (span : Span) : Span := ⟨span.start + bytes, span.stop + bytes⟩

/-- A moved span covers of two texts what it covered of the second. -/
theorem slice?_move (span : Span) (front rest : List Char) :
    (span.move (width front)).slice? (front ++ rest) = span.slice? rest := by
  apply Option.ext
  intro part
  rw [slice?_eq_some_iff, slice?_eq_some_iff]
  dsimp only [move]
  constructor
  · rintro ⟨before, after, same, start, stop⟩
    obtain ⟨left, rfl, rest_eq⟩ := exists_of_width_le same.symm (by omega)
    rw [width_append] at start
    exact ⟨left, after, rest_eq, by omega, by omega⟩
  · rintro ⟨before, after, rfl, start, stop⟩
    exact ⟨front ++ before, after, by simp, by rw [width_append]; omega, by omega⟩

end Span

end SfcIndex
