import SfcIndex.Proofs.Text.Slice

/-! # Where a part of a text stands -/

namespace SfcIndex.Text

/-- The part stands in the text at a byte offset. -/
def StandsAt (text : List Char) (offset : Nat) (part : List Char) : Prop :=
  ∃ before after, text = before ++ (part ++ after) ∧ width before = offset

namespace StandsAt

variable {text middle part : List Char} {base offset : Nat}

theorem self (text : List Char) : StandsAt text 0 text := ⟨[], [], by simp, rfl⟩

/-- A part of a part stands where the two offsets lead. -/
theorem trans (outer : StandsAt text base middle) (inner : StandsAt middle offset part) :
    StandsAt text (base + offset) part := by
  obtain ⟨before, after, rfl, rfl⟩ := outer
  obtain ⟨lead, tail, rfl, rfl⟩ := inner
  exact ⟨before ++ lead, tail ++ after, by simp, width_append before lead⟩

/-- A part stays where it is behind one more character. -/
theorem cons (c : Char) (stands : StandsAt text offset part) :
    StandsAt (c :: text) (c.utf8Size + offset) part := by
  obtain ⟨before, after, rfl, rfl⟩ := stands
  exact ⟨c :: before, after, rfl, rfl⟩

/-- A part ends inside its text. -/
theorem stop_le (stands : StandsAt text offset part) : offset + width part ≤ width text := by
  obtain ⟨before, after, rfl, rfl⟩ := stands
  simp only [width_append]
  omega

end StandsAt

/-- A part stands exactly where the span as wide as the part covers it. -/
theorem standsAt_iff_slice? {text part : List Char} {offset : Nat} :
    StandsAt text offset part ↔
      (⟨offset, offset + width part⟩ : Span).slice? text = some part := by
  rw [Span.slice?_eq_some_iff]
  constructor
  · rintro ⟨before, after, whole, place⟩
    exact ⟨before, after, whole, place.symm, rfl⟩
  · rintro ⟨before, after, whole, place, -⟩
    exact ⟨before, after, whole, place.symm⟩

/-- A span that covers a part of a text has the part at its start. -/
theorem standsAt_of_slice? {text part : List Char} {span : Span}
    (covers : span.slice? text = some part) :
    StandsAt text span.start part ∧ span.stop = span.start + width part := by
  obtain ⟨before, after, whole, start, stop⟩ := Span.slice?_eq_some_iff.1 covers
  exact ⟨⟨before, after, whole, start.symm⟩, stop⟩

end SfcIndex.Text
