import SfcIndex.Proofs.Markup.Values
import SfcIndex.Proofs.Text.Borders

/-! # What stands next to the values of attributes

A value stands behind `=` or a quote, and a quote, a blank or the end of its tag comes after it
(`Region.value_marked`). No word character touches it (`Region.value_bordered`).
-/

namespace SfcIndex.Markup

open Text

/-- No blank is part of a word. -/
theorem isWordChar_of_blank {c : Char} (blank : isAsciiBlank c = true) : isWordChar c = false := by
  simp only [isAsciiBlank, Bool.or_eq_true, decide_eq_true_iff] at blank
  rcases blank with (((rfl | rfl) | rfl) | rfl) | rfl <;> rfl

/-- The characters that can stand directly in front of a value. -/
def valueMarks : List Char := ['=', '"', '\'']

/-- What stands in front of a value is part of no word. -/
theorem isWordChar_of_mem_valueMarks {mark : Char} (known : mark ∈ valueMarks) :
    isWordChar mark = false := by
  rw [valueMarks, List.mem_cons, List.mem_cons, List.mem_singleton] at known
  rcases known with rfl | rfl | rfl <;> rfl

namespace Attribute

/-- A token ends where a word could end. -/
theorem borderedRight_of_mem_tokens {offset : Nat} {text : List Char} {place : Nat × List Char}
    (member : place ∈ tokens offset text) :
    ∃ start, place.1 = offset + start ∧ BorderedRight text start place.2 := by
  fun_induction tokens offset text with
  | case1 => cases member
  | case2 offset c rest blank ih =>
    obtain ⟨start, place_eq, before, after, rfl, rfl, right⟩ := ih member
    exact ⟨width (c :: before), by rw [width_cons]; omega, c :: before, after, rfl, rfl, right⟩
  | case3 offset c rest solid parts ih =>
    have whole : c :: rest = parts.1 ++ parts.2 := (append_splitToken none (c :: rest)).symm
    rcases List.mem_cons.1 member with rfl | later
    · refine ⟨0, rfl, [], parts.2, whole, rfl, ?_⟩
      intro d is
      exact isWordChar_of_blank (head?_splitToken none (c :: rest) d is)
    · obtain ⟨start, place_eq, found⟩ := ih later
      have behind : BorderedRight (c :: rest) (width parts.1) parts.2 :=
        ⟨parts.1, [], by rw [List.append_nil, whole], rfl, by simp⟩
      exact ⟨width parts.1 + start, by omega, behind.trans found⟩

/-- A value stands behind a `=` or a quote. -/
theorem unquote_bordered (raw : List Char) :
    ∃ start, ∃ mark ∈ valueMarks, start + mark.utf8Size = 1 + (unquote raw).2 ∧
      BorderedRight ('=' :: raw) start (mark :: (unquote raw).1) := by
  have bare : ∃ start, ∃ mark ∈ valueMarks, start + mark.utf8Size = 1 + 0 ∧
      BorderedRight ('=' :: raw) start (mark :: raw) :=
    ⟨0, '=', by decide, rfl, [], [], by simp, rfl, by simp⟩
  unfold unquote
  split
  · next quote inner =>
    split
    · next quoted =>
      rw [Bool.and_eq_true, Bool.or_eq_true, decide_eq_true_iff, decide_eq_true_iff,
        decide_eq_true_iff] at quoted
      obtain ⟨mark, last⟩ := quoted
      have size : quote.utf8Size = 1 := by
        rcases mark with rfl | rfl <;> rfl
      have known : quote ∈ valueMarks := by
        rcases mark with rfl | rfl <;> decide
      obtain ⟨front, rfl⟩ := List.getLast?_eq_some_iff.1 last
      refine ⟨1, quote, known, by rw [size], ['='], [quote], ?_, rfl, ?_⟩
      · rw [List.dropLast_concat]
        rfl
      · rintro c ⟨⟩
        exact isWordChar_of_mem_valueMarks known
    · exact bare
  · exact bare

/-- The value of an attribute stands between a mark and where a word could end. -/
theorem spelled?_bordered {token : List Char} {offset : Nat} {found : Attribute}
    (spells : spelled? token offset = some found) {value : AttributeValue}
    (is : found.value = some value) :
    ∃ start, ∃ mark ∈ valueMarks, value.span.start = offset + (start + mark.utf8Size) ∧
      BorderedRight token start (mark :: value.text.toList) := by
  have whole := List.takeWhile_append_dropWhile (p := (· ≠ '=')) (l := token)
  have divides := List.head?_dropWhile_not (· ≠ '=') token
  unfold spelled? at spells
  dsimp only at spells
  split at spells
  · cases spells
  · split at spells
    · cases spells
      cases is
    · next c raw equals =>
      rw [equals] at whole divides
      obtain rfl : c = '=' := by simpa using divides
      cases spells
      cases is
      obtain ⟨start, mark, known, place, inner⟩ := unquote_bordered raw
      have behind : BorderedRight token (width (token.takeWhile (· ≠ '='))) ('=' :: raw) :=
        ⟨token.takeWhile (· ≠ '='), [], by rw [List.append_nil, whole], rfl, by simp⟩
      refine ⟨width (token.takeWhile (· ≠ '=')) + start, mark, known, ?_, ?_⟩
      · dsimp only
        omega
      · rw [String.toList_ofList]
        exact behind.trans inner

end Attribute

/-- A blank or a mark comes after the attributes of a tag. -/
theorem Tag.Site.borderedRight_attributeText {tag : Tag} {cursor next : Cursor}
    (site : tag.Site cursor next) :
    ∃ start, tag.attributeSpan.start = cursor.offset + start ∧
      BorderedRight cursor.rest start tag.attributeText := by
  have less : '<'.utf8Size = 1 := rfl
  have start_eq := site.start_eq
  have attributes_eq := site.attributeStart_eq
  refine ⟨width (site.skipped ++ '<' :: site.lead), ?_, site.skipped ++ '<' :: site.lead,
    site.tail ++ '>' :: next.rest, ?_, rfl, ?_⟩
  · rw [width_append, width_cons, less]
    omega
  · rw [site.text]
    simp
  · apply head?_append_eq_false
    · intro c is
      rcases site.tail_marks c (List.mem_of_mem_head? is) with blank | rfl
      · exact isWordChar_of_blank blank
      · rfl
    · rintro c ⟨⟩
      rfl

namespace Region

variable {rawTags : List String} {text : List Char} {region : Region}

/-- The value of an attribute stands behind a mark, and no word character follows it. -/
theorem value_marked (member : region ∈ (tree rawTags text).children.flatMap descendants)
    {found : Attribute} (carries : found ∈ region.attributes) {value : AttributeValue}
    (is : found.value = some value) :
    ∃ start, ∃ mark ∈ valueMarks, value.span.start = start + mark.utf8Size ∧
      BorderedRight text start (mark :: value.text.toList) := by
  obtain ⟨builder, tag, read, opening⟩ := exists_tag_of_mem member
  obtain ⟨next, ⟨site⟩⟩ := site_of_mem_tags read
  rw [attributes, opening] at carries
  obtain ⟨⟨place, token⟩, known, spells⟩ := List.mem_filterMap.1 carries
  obtain ⟨start, mark, marks, value_eq, inner⟩ := Attribute.spelled?_bordered spells is
  obtain ⟨lead, token_eq, middle⟩ := Attribute.borderedRight_of_mem_tokens known
  obtain ⟨front, attributes_eq, outer⟩ := site.borderedRight_attributeText
  have origin : (Cursor.atStart text).offset = 0 := rfl
  refine ⟨front + (lead + start), mark, marks, ?_, outer.trans (middle.trans inner)⟩
  dsimp only at token_eq
  omega

/-- No word character touches the value of an attribute. -/
theorem value_bordered (member : region ∈ (tree rawTags text).children.flatMap descendants)
    {found : Attribute} (carries : found ∈ region.attributes) {value : AttributeValue}
    (is : found.value = some value) : Bordered text value.span.start value.text.toList := by
  obtain ⟨start, mark, marks, value_eq, behind⟩ := value_marked member carries is
  rw [value_eq]
  exact behind.behind (isWordChar_of_mem_valueMarks marks)

end Region

end SfcIndex.Markup
