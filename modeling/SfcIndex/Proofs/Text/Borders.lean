import SfcIndex.Proofs.Text.Words

/-! # Parts of a text that no word character touches

A maximal run of word characters in a part with such borders is one in the whole text
(`Text.Bordered.wordRun`), and it is the word at its own offset (`Text.WordRun.wordAt?_eq`).
-/

namespace SfcIndex.Text

/-- The part stands in the text at a byte offset, and no word character follows it. -/
def BorderedRight (text : List Char) (offset : Nat) (part : List Char) : Prop :=
  ∃ before after, text = before ++ (part ++ after) ∧ width before = offset ∧
    ∀ c ∈ after.head?, isWordChar c = false

/-- The part stands in the text at a byte offset, and no word character stands next to it. -/
def Bordered (text : List Char) (offset : Nat) (part : List Char) : Prop :=
  ∃ before after, text = before ++ (part ++ after) ∧ width before = offset ∧
    (∀ c ∈ before.getLast?, isWordChar c = false) ∧ ∀ c ∈ after.head?, isWordChar c = false

section Ends

variable {first second : List Char}

/-- Two texts that no word starts have no word at the start when they are joined. -/
theorem head?_append_eq_false (near : ∀ c ∈ first.head?, isWordChar c = false)
    (far : ∀ c ∈ second.head?, isWordChar c = false) :
    ∀ c ∈ (first ++ second).head?, isWordChar c = false := by
  cases first with
  | nil => exact far
  | cons d more => exact near

/-- Two texts that no word ends have no word at the end when they are joined. -/
theorem getLast?_append_eq_false (far : ∀ c ∈ first.getLast?, isWordChar c = false)
    (near : ∀ c ∈ second.getLast?, isWordChar c = false) :
    ∀ c ∈ (first ++ second).getLast?, isWordChar c = false := by
  intro c is
  rw [List.getLast?_append] at is
  cases ends : second.getLast? with
  | none =>
    rw [ends] at is
    exact far c is
  | some d =>
    rw [ends] at is
    exact near c (ends.trans is)

end Ends

variable {text middle part run : List Char} {base offset : Nat}

/-- A border on the right inside a bordered part is one of the whole text. -/
theorem BorderedRight.trans (outer : BorderedRight text base middle)
    (inner : BorderedRight middle offset part) : BorderedRight text (base + offset) part := by
  obtain ⟨before, after, rfl, rfl, far⟩ := outer
  obtain ⟨lead, tail, rfl, rfl, near⟩ := inner
  exact ⟨before ++ lead, tail ++ after, by simp, width_append _ _, head?_append_eq_false near far⟩

/-- Behind a character that is no word character, a part has both borders. -/
theorem BorderedRight.behind {mark : Char} (found : BorderedRight text offset (mark :: part))
    (other : isWordChar mark = false) : Bordered text (offset + mark.utf8Size) part := by
  obtain ⟨before, after, rfl, rfl, right⟩ := found
  refine ⟨before ++ [mark], after, by simp, by simp, ?_, right⟩
  intro c is
  rw [List.getLast?_concat] at is
  cases is
  exact other

namespace Bordered

/-- Borders inside a bordered part are borders of the whole text. -/
theorem trans (outer : Bordered text base middle) (inner : Bordered middle offset part) :
    Bordered text (base + offset) part := by
  obtain ⟨before, after, rfl, rfl, left, right⟩ := outer
  obtain ⟨lead, tail, rfl, rfl, left', right'⟩ := inner
  exact ⟨before ++ lead, tail ++ after, by simp, width_append _ _,
    getLast?_append_eq_false left left', head?_append_eq_false right' right⟩

/-- A run of word characters in a part is one in the text. -/
theorem wordRun (outer : Bordered text base middle) (inner : WordRun middle offset run) :
    WordRun text (base + offset) run := by
  obtain ⟨lead, tail, whole, place, isolated⟩ := inner
  have bordered : Bordered middle offset run :=
    ⟨lead, tail, whole, place, isolated.left, isolated.right⟩
  obtain ⟨before, after, whole', place', left, right⟩ := outer.trans bordered
  exact ⟨before, after, whole', place', isolated.nonempty, isolated.word, left, right⟩

end Bordered

/-- A text that does not end in a word character has no word at its end. -/
theorem trailingWord_eq_nil (ends : ∀ c ∈ text.getLast?, isWordChar c = false) :
    trailingWord text = [] := by
  rw [trailingWord, List.reverse_eq_nil_iff]
  cases reversed : text.reverse with
  | nil => rfl
  | cons c rest =>
    have other : isWordChar c = false := by
      apply ends
      rw [← List.head?_reverse, reversed]
      rfl
    rw [List.takeWhile_cons_of_neg (by simp [other])]

/-- The word at the start of a maximal run of word characters is that run. -/
theorem WordRun.wordAt?_eq (found : WordRun text offset run) :
    wordAt? text offset = some (⟨offset, offset + width run⟩, String.ofList run) := by
  obtain ⟨before, after, rfl, rfl, isolated⟩ := found
  have head := trailingWord_eq_nil isolated.left
  obtain ⟨tail, -⟩ := takeWhile_dropWhile_append isolated.word
    fun c is => isolated.right c (Option.mem_def.2 is)
  have some : run.isEmpty = false := List.isEmpty_eq_false_iff.2 isolated.nonempty
  rw [wordAt?, splitAt?_width]
  simp only [Option.bind_eq_bind, Option.bind_some, head, tail, some, Bool.and_false,
    Bool.false_eq_true, ↓reduceIte, width_nil, Nat.sub_zero, List.nil_append]

end SfcIndex.Text
