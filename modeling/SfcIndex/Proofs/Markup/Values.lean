import SfcIndex.Proofs.Markup.Locality
import SfcIndex.Proofs.Markup.Openings
import SfcIndex.Proofs.Text.Place

/-! # Where the values of attributes stand

The attributes of a tag follow one another, and the value of each stands in the text of the file
where its span says, inside the tag (`Region.value_standsAt`).
-/

namespace SfcIndex.Markup

open Text

namespace Attribute

/-- A value without its quotes stands in the value. -/
theorem unquote_standsAt (raw : List Char) : StandsAt raw (unquote raw).2 (unquote raw).1 := by
  unfold unquote
  split
  · next quote inner =>
    split
    · next quoted =>
      rw [Bool.and_eq_true, Bool.or_eq_true, decide_eq_true_iff, decide_eq_true_iff,
        decide_eq_true_iff] at quoted
      obtain ⟨mark, last⟩ := quoted
      have size : quote.utf8Size = 1 := by
        rcases mark with rfl | rfl <;> rfl
      refine ⟨[quote], [quote], ?_, by rw [width_cons, size]; rfl⟩
      have ne_nil : inner ≠ [] := by
        rintro rfl
        cases last
      rw [List.getLast?_eq_some_getLast ne_nil, Option.some.injEq] at last
      rw [List.singleton_append, ← last, List.dropLast_concat_getLast ne_nil]
    · exact .self _
  · exact .self _

/-- A token stands in the text that it is taken from. -/
theorem standsAt_of_mem_tokens {offset : Nat} {text : List Char} {place : Nat × List Char}
    (member : place ∈ tokens offset text) :
    ∃ start, place.1 = offset + start ∧ StandsAt text start place.2 := by
  fun_induction tokens offset text with
  | case1 => cases member
  | case2 offset c rest blank ih =>
    obtain ⟨start, place_eq, stands⟩ := ih member
    exact ⟨c.utf8Size + start, by omega, stands.cons c⟩
  | case3 offset c rest solid parts ih =>
    have whole : c :: rest = parts.1 ++ parts.2 := (append_splitToken none (c :: rest)).symm
    rcases List.mem_cons.1 member with rfl | later
    · exact ⟨0, rfl, [], parts.2, whole, rfl⟩
    · obtain ⟨start, place_eq, stands⟩ := ih later
      have behind : StandsAt (c :: rest) (width parts.1) parts.2 := by
        rw [whole]
        exact ⟨parts.1, [], by rw [List.append_nil], rfl⟩
      exact ⟨width parts.1 + start, by omega, behind.trans stands⟩

/-- A token goes on to a blank or to the end of the text. -/
theorem head?_splitToken (openQuote : Option Char) (text : List Char) :
    ∀ c ∈ (splitToken openQuote text).2.head?, isAsciiBlank c = true := by
  induction text generalizing openQuote with
  | nil => simp [splitToken]
  | cons d rest ih =>
    rw [splitToken]
    split
    next ends =>
      intro c is
      cases is
      exact (Bool.and_eq_true_iff.1 ends).2
    next => exact ih _

/-- Tokens follow one another, with a blank between them. -/
theorem tokens_pairwise (offset : Nat) (text : List Char) :
    (tokens offset text).Pairwise fun first second => first.1 + width first.2 < second.1 := by
  fun_induction tokens offset text with
  | case1 => exact .nil
  | case2 offset c rest blank ih => exact ih
  | case3 offset c rest solid parts ih =>
    refine List.pairwise_cons.2 ⟨?_, ih⟩
    intro place later
    have starts : ∀ d ∈ parts.2.head?, isAsciiBlank d = true := head?_splitToken none (c :: rest)
    cases behind : parts.2 with
    | nil =>
      rw [behind, tokens] at later
      cases later
    | cons d more =>
      rw [behind] at later starts
      rw [tokens, dif_pos (starts d rfl)] at later
      obtain ⟨start, place_eq, -⟩ := standsAt_of_mem_tokens later
      have positive := d.utf8Size_pos
      dsimp only
      omega

/-- The value that a token spells stands in the token, behind the start of its key. -/
theorem spelled?_standsAt {token : List Char} {offset : Nat} {found : Attribute}
    (spells : spelled? token offset = some found) :
    found.keySpan.start = offset ∧
      ∀ value, found.value = some value →
        ∃ start, 0 < start ∧ value.span.start = offset + start ∧
          StandsAt token start value.text.toList := by
  have whole := List.takeWhile_append_dropWhile (p := (· ≠ '=')) (l := token)
  have divides := List.head?_dropWhile_not (· ≠ '=') token
  unfold spelled? at spells
  dsimp only at spells
  split at spells
  · cases spells
  · split at spells
    · cases spells
      refine ⟨rfl, ?_⟩
      intro value none
      cases none
    · next c raw equals =>
      rw [equals] at whole divides
      obtain rfl : c = '=' := by simpa using divides
      cases spells
      refine ⟨rfl, ?_⟩
      intro value is
      cases is
      have behind : StandsAt token (width (token.takeWhile (· ≠ '=')) + 1) raw := by
        refine ⟨token.takeWhile (· ≠ '=') ++ ['='], [], ?_, width_append _ _⟩
        rw [List.append_nil, List.append_assoc]
        exact whole.symm
      have size := Nat.succ_pos (width (token.takeWhile (· ≠ '=')))
      refine ⟨width (token.takeWhile (· ≠ '=')) + 1 + (unquote raw).2, by omega, ?_, ?_⟩
      · dsimp only
        omega
      · rw [String.toList_ofList]
        exact behind.trans (unquote_standsAt raw)

/-- The value of an attribute stands in the text of the attributes. -/
theorem listed_standsAt {base : Nat} {text : List Char} {found : Attribute}
    (member : found ∈ listed base text) {value : AttributeValue} (is : found.value = some value) :
    found.keySpan.start < value.span.start ∧
      ∃ start, value.span.start = base + start ∧ StandsAt text start value.text.toList := by
  obtain ⟨⟨offset, token⟩, place, spells⟩ := List.mem_filterMap.1 member
  obtain ⟨key, values⟩ := spelled?_standsAt spells
  obtain ⟨start, positive, value_eq, inner⟩ := values value is
  obtain ⟨lead, token_eq, outer⟩ := standsAt_of_mem_tokens place
  dsimp only at token_eq
  exact ⟨by omega, lead + start, by omega, outer.trans inner⟩

/-- Attributes follow one another: the value of one ends before the key of the next. -/
theorem listed_pairwise (base : Nat) (text : List Char) :
    (listed base text).Pairwise fun first second =>
      ∀ value, first.value = some value →
        value.span.start + width value.text.toList ≤ second.keySpan.start := by
  rw [listed, List.pairwise_filterMap]
  apply (tokens_pairwise 0 text).imp
  intro first second apart found spells next spells' value is
  obtain ⟨key, -⟩ := spelled?_standsAt spells'
  obtain ⟨size, below⟩ := (spelled?_bounds spells).2 value is
  omega

end Attribute

/-- The attribute text of a tag stands in the text that holds the tag. -/
theorem Tag.Site.standsAt_attributeText {tag : Tag} {cursor next : Cursor}
    (site : tag.Site cursor next) :
    ∃ start, tag.attributeSpan.start = cursor.offset + start ∧
      StandsAt cursor.rest start tag.attributeText := by
  have less : '<'.utf8Size = 1 := rfl
  have start_eq := site.start_eq
  have attributes_eq := site.attributeStart_eq
  refine ⟨width (site.skipped ++ '<' :: site.lead), ?_, ?_⟩
  · rw [width_append, width_cons, less]
    omega
  · refine ⟨_, site.tail ++ '>' :: next.rest, ?_, rfl⟩
    exact site.text.trans (by simp)

/-- The attributes that are kept for a tag stand where their offsets lead, or there are none. -/
theorem Tag.record_standsAt {text : List Char} {found tag : Tag}
    (stands : StandsAt text found.attributeSpan.start found.attributeText)
    (records : found.record text = .ok tag) :
    tag.attributeText = [] ∨ StandsAt text tag.attributeSpan.start tag.attributeText := by
  obtain ⟨stop, -, same⟩ := Offset.exists_of_bind records
  cases same
  dsimp only
  split
  next whole =>
    have start := congrArg Span.start whole
    dsimp only at start
    rw [start]
    exact .inr stands
  next =>
    cases covers : (⟨Offset.cut found.attributeSpan.start,
        Offset.cut found.attributeSpan.stop⟩ : Span).slice? text with
    | none => exact .inl rfl
    | some part => exact .inr (standsAt_of_slice? covers).1

namespace Region

/-- Every tag of a text stands in it. -/
theorem site_of_mem_tags {rawTags : List String} {cursor : Cursor} {tag : Tag}
    (member : tag ∈ tags rawTags cursor) : ∃ next, Nonempty (tag.Site cursor next) := by
  fun_induction tags rawTags cursor with
  | case1 cursor none => cases member
  | case2 cursor first next found ih =>
    rcases List.mem_cons.1 member with rfl | later
    · exact ⟨next, Cursor.nextTag?_site found⟩
    · obtain ⟨after, ⟨site⟩⟩ := ih later
      obtain ⟨lead, whole, offset⟩ := exists_of_nextTag? found
      obtain ⟨skipped, same, place⟩ := resume_skips rawTags first next
      refine ⟨after, ⟨site.skip (lead ++ '>' :: skipped) ?_ ?_⟩⟩
      · rw [whole, same]
        simp
      · have greater : '>'.utf8Size = 1 := rfl
        simp only [width_append, width_cons, greater]
        omega

section Elements

variable {rawTags : List String} {text : List Char} {region : Region}

/-- The value of an attribute stands in the text, inside the tag that carries the attribute. -/
theorem value_standsAt (member : region ∈ (tree rawTags text).children.flatMap descendants)
    {found : Attribute} (carries : found ∈ region.attributes) {value : AttributeValue}
    (is : found.value = some value) :
    StandsAt text value.span.start value.text.toList ∧
      region.tagSpan.start < value.span.start ∧
      value.span.start + width value.text.toList < region.tagSpan.stop := by
  obtain ⟨builder, tag, read, opening⟩ := exists_tag_of_mem member
  obtain ⟨next, ⟨site⟩⟩ := site_of_mem_tags read
  rw [attributes, opening] at carries
  obtain ⟨-, start, value_eq, inner⟩ := Attribute.listed_standsAt carries is
  obtain ⟨lead, attributes_eq, outer⟩ := site.standsAt_attributeText
  have tag_eq : region.tagSpan = tag.span := by
    rw [tagSpan, opening]
    rfl
  have origin : (Cursor.atStart text).offset = 0 := rfl
  have place : value.span.start = lead + start := by omega
  have inside := inner.stop_le
  have attributeStart := site.attributeStart_eq
  have attributeStop := site.attributeStop_eq
  have stop_eq := site.stop_eq
  refine ⟨?_, ?_, ?_⟩
  · rw [place]
    exact outer.trans inner
  · rw [tag_eq]
    omega
  · rw [tag_eq]
    omega

/-- The attributes of an element come one after the other. -/
theorem attributes_pairwise (member : region ∈ (tree rawTags text).children.flatMap descendants) :
    region.attributes.Pairwise fun first second =>
      ∀ value, first.value = some value →
        value.span.start + width value.text.toList ≤ second.keySpan.start := by
  obtain ⟨builder, tag, -, opening⟩ := exists_tag_of_mem member
  rw [attributes, opening]
  exact Attribute.listed_pairwise _ _

/-- The value of an attribute stands behind the attribute's key. -/
theorem key_lt_value (member : region ∈ (tree rawTags text).children.flatMap descendants)
    {found : Attribute} (carries : found ∈ region.attributes) {value : AttributeValue}
    (is : found.value = some value) : found.keySpan.start < value.span.start := by
  obtain ⟨builder, tag, -, opening⟩ := exists_tag_of_mem member
  rw [attributes, opening] at carries
  exact (Attribute.listed_standsAt carries is).1

end Elements

section Parsed

variable {rawTags : List String} {text : List Char} {document region : Region}

/-- The attributes of a tag of a run stand where their offsets lead, or there are none. -/
theorem Run.attributes_standsAt {earlier : List Tag} {builder : Builder} {scanner : Scanner}
    (run : Run rawTags text earlier builder scanner) {tag : Tag} (member : tag ∈ earlier) :
    tag.attributeText = [] ∨ StandsAt text tag.attributeSpan.start tag.attributeText := by
  induction run with
  | start => cases member
  | step run given _ ih =>
    rcases List.mem_append.1 member with before | new
    · exact ih before
    · obtain ⟨cursor, rfl, before, whole, place⟩ := run.exists_on
      obtain ⟨found, after, -, read, records, -⟩ :=
        Scanner.exists_found ⟨before, whole, place⟩ given
      obtain ⟨site⟩ := Cursor.nextTag?_site read
      obtain ⟨start, attributes_eq, inner⟩ := site.standsAt_attributeText
      rw [List.mem_singleton.1 new]
      refine Tag.record_standsAt ?_ records
      rw [attributes_eq]
      exact StandsAt.trans ⟨before, [], by rw [List.append_nil]; exact whole, place.symm⟩ inner

/-- In a text that can be read, of any length, the value of an attribute stands where its span
says. -/
theorem standsAt_of_parse (parsed : parse rawTags text = .ok document)
    (member : region ∈ document.descendants) {found : Attribute}
    (carries : found ∈ region.attributes) {value : AttributeValue}
    (is : found.value = some value) : StandsAt text value.span.start value.text.toList := by
  obtain ⟨tags, last, stop, run, opens⟩ := exists_opening_of_carries parsed member carries
  rw [run.builder_eq] at opens
  rcases Builder.exists_of_mem_openings opens with none | ⟨builder, tag, read, opening⟩
  · simp [Builder.start, Builder.openings, openings] at none
  rw [attributes, opening] at carries
  obtain ⟨-, start, value_eq, inner⟩ := Attribute.listed_standsAt carries is
  rw [value_eq]
  rcases run.attributes_standsAt read with none | outer
  · -- Without a text there are no attributes.
    dsimp only [Builder.openingOf] at carries
    rw [none, Attribute.listed, Attribute.tokens] at carries
    cases carries
  · exact outer.trans inner

end Parsed

end Region

end SfcIndex.Markup
