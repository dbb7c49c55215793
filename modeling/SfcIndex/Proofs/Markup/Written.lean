import SfcIndex.Proofs.Bytes.Scan

/-! # How a tag is written

Every tag that is found is `<`, a name, attributes and blanks up to a `>`, with a `/` in front of
the name of a closing tag and one behind the attributes of a tag that closes itself
(`Cursor.exists_written`). So all its parts are there in the text, one behind the other
(`Tag.Written.shaped`).
-/

namespace SfcIndex.Markup

open Text

namespace Tag

/-- What is written in front of the name of a closing tag. -/
def slash (tag : Tag) : List Char := if tag.kind = .closing then ['/'] else []

/-- What is written behind the attributes of a tag that closes itself. -/
def mark (tag : Tag) : List Char := if tag.kind = .selfClosing then ['/'] else []

/-- The bytes of the name, behind `<` or `</`. -/
def nameSpan (tag : Tag) : Span :=
  let start := tag.span.start + width ('<' :: tag.slash)
  ⟨start, start + width tag.name.toList⟩

/-- The text of a tag with blanks in front of its `>`. -/
def render (tag : Tag) (blanks : List Char) : List Char :=
  '<' :: (tag.slash ++ (tag.name.toList ++ (tag.attributeText ++ (tag.mark ++ (blanks ++ ['>'])))))

/-- What the parts of a tag are made of. Only a closing tag can be without a name, it is without
attributes, and a `/` at the end of the attributes makes a tag close itself. -/
structure Formed (tag : Tag) : Prop where
  named : ∀ c ∈ tag.name.toList, isNameChar c = true
  nameless : tag.name.toList = [] → tag.kind = .closing
  bare : tag.kind = .closing → tag.attributeText = []
  unslashed : tag.kind = .opening → tag.attributeText.getLast? ≠ some '/'

/-- The tag stands at an offset, written with these blanks in front of its `>`. -/
structure Written (tag : Tag) (start : Nat) (blanks : List Char) : Prop extends Formed tag where
  span_eq : tag.span = ⟨start, start + width (tag.render blanks)⟩
  attributeSpan_eq :
    tag.attributeSpan = ⟨tag.nameSpan.stop, tag.nameSpan.stop + width tag.attributeText⟩
  blank : ∀ c ∈ blanks, isAsciiBlank c = true

/-- The tag and its parts are in a text: the whole from `<` to `>`, the name behind the `<`, the
attributes behind the name, and behind these at most the mark of a tag that closes itself and
blanks. -/
structure Shaped (text : List Char) (tag : Tag) : Prop extends Formed tag where
  nonempty : tag.span.start < tag.span.stop
  inside : tag.span.stop ≤ width text
  angles : ∃ inner, tag.span.slice? text = some ('<' :: (inner ++ ['>']))
  name_eq : tag.nameSpan.slice? text = some tag.name.toList
  attributes_eq : tag.attributeSpan.slice? text = some tag.attributeText
  ordered : tag.span.start < tag.nameSpan.start ∧ tag.nameSpan.stop ≤ tag.attributeSpan.start ∧
    tag.attributeSpan.stop < tag.span.stop
  marked : ∃ blanks, (∀ c ∈ blanks, isAsciiBlank c = true) ∧
    (⟨tag.attributeSpan.stop, tag.span.stop⟩ : Span).slice? text =
      some (tag.mark ++ (blanks ++ ['>']))

/-- A tag that is written in a text has its parts there. -/
theorem Written.shaped {tag : Tag} {start : Nat} {blanks text rest : List Char}
    (written : tag.Written start blanks) (on : Bytes.On text ⟨start, tag.render blanks ++ rest⟩) :
    tag.Shaped text := by
  have size := on.offset_add_width
  have less : '<'.utf8Size = 1 := rfl
  have greater : '>'.utf8Size = 1 := rfl
  have whole : tag.render blanks ++ rest = ('<' :: tag.slash) ++ (tag.name.toList ++
      (tag.attributeText ++ ((tag.mark ++ (blanks ++ ['>'])) ++ rest))) := by
    simp [render]
  have angles : tag.render blanks = '<' :: ((tag.slash ++ (tag.name.toList ++
      (tag.attributeText ++ (tag.mark ++ blanks)))) ++ ['>']) := by
    simp [render]
  have spanSlice := on.slice?_eq
  rw [← written.span_eq, angles] at spanSlice
  -- The parts come one behind the other, so each starts where the one before it ends.
  rw [whole] at on
  have nameSlice := on.skip.slice?_eq
  have nameSpan_eq : tag.nameSpan = ⟨start + width ('<' :: tag.slash),
      start + width ('<' :: tag.slash) + width tag.name.toList⟩ := by
    rw [nameSpan, written.span_eq]
  rw [← nameSpan_eq] at nameSlice
  have attributeSlice := on.skip.skip.slice?_eq
  have attributeSpan_eq := written.attributeSpan_eq
  rw [nameSpan_eq] at attributeSpan_eq
  rw [← attributeSpan_eq] at attributeSlice
  have markSlice := on.skip.skip.skip.slice?_eq
  have start_eq : tag.span.start = start := by rw [written.span_eq]
  have stop_eq : tag.span.stop = start + width ('<' :: tag.slash) + width tag.name.toList +
      width tag.attributeText + width (tag.mark ++ (blanks ++ ['>'])) := by
    rw [written.span_eq, render]
    simp only [width_cons, width_append]
    omega
  have greaterWidth : 0 < width (tag.mark ++ (blanks ++ ['>'])) := by
    simp only [width_append, width_cons, greater]
    omega
  have lessWidth : 0 < width ('<' :: tag.slash) := by
    rw [width_cons]
    omega
  rw [width_append] at size
  refine ⟨written.toFormed, by omega, ?_, ⟨_, spanSlice⟩, nameSlice, attributeSlice, ?_, blanks,
    written.blank, ?_⟩
  · rw [written.span_eq]
    dsimp only at size ⊢
    omega
  · rw [nameSpan_eq, attributeSpan_eq, start_eq, stop_eq]
    dsimp only
    omega
  · rw [attributeSpan_eq, stop_eq]
    exact markSlice

end Tag

section

variable {start : Nat} {inside : List Char} {tag : Tag} {next : Cursor}

/-- A closing tag is written as its parts say. -/
theorem closingTag?_render (found : closingTag? start inside = some (tag, next)) :
    ∃ blanks, tag.Written start blanks ∧ '<' :: '/' :: inside = tag.render blanks ++ next.rest ∧
      next.offset = tag.span.stop ∧ tag.kind = .closing := by
  have name := List.takeWhile_append_dropWhile (p := isNameChar) (l := inside)
  have spaces := List.takeWhile_append_dropWhile (p := isAsciiBlank)
    (l := inside.dropWhile isNameChar)
  unfold closingTag? at found
  dsimp only at found
  split at found
  next rest ends =>
    cases found
    rw [ends] at spaces
    have less : '<'.utf8Size = 1 := rfl
    have slash : '/'.utf8Size = 1 := rfl
    have greater : '>'.utf8Size = 1 := rfl
    refine ⟨(inside.dropWhile isNameChar).takeWhile isAsciiBlank,
      ⟨⟨?_, fun _ => rfl, fun _ => rfl, fun opens => nomatch opens⟩, ?_, ?_, ?_⟩, ?_, rfl, rfl⟩
    · intro c member
      rw [String.toList_ofList] at member
      exact List.mem_takeWhile_imp member
    · simp only [Tag.render, Tag.slash, Tag.mark, String.toList_ofList, width_cons, width_append,
        width_nil, less, slash, greater, if_true, reduceCtorEq, if_false, Span.mk.injEq, true_and]
      omega
    · simp only [Tag.nameSpan, Tag.slash, String.toList_ofList, width_cons, width_nil, less, slash,
        if_true, Span.emptyAt, Nat.add_zero]
    · intro c member
      exact List.mem_takeWhile_imp member
    · simp [Tag.render, Tag.slash, Tag.mark, spaces, name]
  next => cases found

/-- A tag that opens an element is written as its parts say. -/
theorem written_of_opens {kind : TagKind} (opens : kind ≠ .closing)
    {name attributeText blanks : List Char} (some : name ≠ [])
    (named : ∀ c ∈ name, isNameChar c = true) (blank : ∀ c ∈ blanks, isAsciiBlank c = true)
    (unslashed : kind = .opening → attributeText.getLast? ≠ Option.some '/') (start : Nat) :
    let nameStop := start + 1 + width name
    let mark := if kind = .selfClosing then ['/'] else []
    Tag.Written
      { kind := kind
        name := String.ofList name
        span := ⟨start, nameStop + width (attributeText ++ (mark ++ blanks)) + 1⟩
        attributeSpan := ⟨nameStop, nameStop + width attributeText⟩
        attributeText := attributeText } start blanks := by
  have less : '<'.utf8Size = 1 := rfl
  have greater : '>'.utf8Size = 1 := rfl
  refine ⟨⟨?_, ?_, fun closes => absurd closes opens, unslashed⟩, ?_, ?_, blank⟩
  · rwa [String.toList_ofList]
  · intro none
    rw [String.toList_ofList] at none
    exact absurd none some
  · simp only [Tag.render, Tag.slash, Tag.mark, if_neg opens, String.toList_ofList, width_cons,
      width_append, width_nil, less, greater, Span.mk.injEq, true_and]
    omega
  · simp only [Tag.nameSpan, Tag.slash, if_neg opens, String.toList_ofList, width_cons, width_nil,
      less, Nat.add_zero]

/-- An opening tag ends where the search for its end ends. -/
theorem openingTag?_render (found : openingTag? start inside = some (tag, next)) :
    ∃ blanks, tag.Written start blanks ∧ '<' :: inside = tag.render blanks ++ next.rest ∧
      next.offset = tag.span.stop ∧ tag.kind ≠ .closing ∧
      splitAtClose? (.outside false)
          (tag.attributeText ++ (tag.mark ++ (blanks ++ '>' :: next.rest))) =
        some (tag.attributeText ++ (tag.mark ++ blanks), next.rest) := by
  have name := List.takeWhile_append_dropWhile (p := isNameChar) (l := inside)
  have named : ∀ c ∈ inside.takeWhile isNameChar, isNameChar c = true :=
    fun c member => List.mem_takeWhile_imp member
  unfold openingTag? at found
  dsimp only at found
  split at found
  next => cases found
  next starts =>
    have some : inside.takeWhile isNameChar ≠ [] := by
      intro none
      simp [none] at starts
    split at found
    next => cases found
    next written rest closes =>
      obtain ⟨blanks, trimmed, blank⟩ := trimBlankEnd_begins written
      rw [eq_of_splitAtClose? closes] at name closes
      by_cases slashed : (trimBlankEnd written).getLast? = Option.some '/'
      · -- The `/` at the end is cut off from the attributes.
        obtain ⟨front, ends⟩ := List.getLast?_eq_some_iff.1 slashed
        rw [if_pos slashed, if_pos slashed, ends, List.dropLast_concat] at found
        rw [ends, List.append_assoc] at trimmed
        subst trimmed
        cases found
        have opens : TagKind.selfClosing ≠ .closing := by decide
        refine ⟨blanks, written_of_opens opens some named blank (by simp) start, ?_, rfl, opens, ?_⟩
        · conv_lhs => rw [← name]
          simp [Tag.render, Tag.slash, Tag.mark]
        · simpa [Tag.mark] using closes
      · rw [if_neg slashed, if_neg slashed] at found
        generalize trimBlankEnd written = attributeText at found trimmed slashed
        subst trimmed
        cases found
        have opens : TagKind.opening ≠ .closing := by decide
        refine ⟨blanks, written_of_opens opens some named blank (fun _ => slashed) start, ?_, rfl,
          opens, ?_⟩
        · conv_lhs => rw [← name]
          simp [Tag.render, Tag.slash, Tag.mark]
        · simpa [Tag.mark] using closes

end

end SfcIndex.Markup

namespace SfcIndex.Text.Cursor

open Markup

/-- The second place comes behind the first one in the same text, or is the same place. -/
def Reaches (cursor next : Cursor) : Prop :=
  ∃ skipped, cursor.rest = skipped ++ next.rest ∧ next.offset = cursor.offset + width skipped

namespace Reaches

variable {cursor middle next : Cursor}

/-- A place reaches itself. -/
theorem refl (cursor : Cursor) : cursor.Reaches cursor := ⟨[], rfl, rfl⟩

/-- Places that are reached one from the other are reached from the first. -/
theorem trans (first : cursor.Reaches middle) (second : middle.Reaches next) :
    cursor.Reaches next := by
  obtain ⟨front, same, place⟩ := first
  obtain ⟨between, same', place'⟩ := second
  refine ⟨front ++ between, ?_, ?_⟩
  · rw [same, same', List.append_assoc]
  · rw [place', place, width_append, Nat.add_assoc]

/-- A place that is reached does not come before. -/
theorem offset_le (reaches : cursor.Reaches next) : cursor.offset ≤ next.offset := by
  obtain ⟨skipped, -, place⟩ := reaches
  omega

/-- A place that is reached in a text is in the text. -/
theorem on {text : List Char} (reaches : cursor.Reaches next) (on : Bytes.On text cursor) :
    Bytes.On text next := by
  obtain ⟨skipped, skips, place⟩ := reaches
  exact on.forward skips place

end Reaches

/-- Behind a comment the text goes on. -/
theorem reaches_pastComment (offset : Nat) (rest : List Char) :
    (⟨offset, '<' :: '!' :: '-' :: '-' :: rest⟩ : Cursor).Reaches (pastComment (offset + 4) rest) :=
  have opened : (⟨offset, '<' :: '!' :: '-' :: '-' :: rest⟩ : Cursor).Reaches ⟨offset + 4, rest⟩ :=
    ⟨['<', '!', '-', '-'], rfl, rfl⟩
  opened.trans (pastComment_skips (offset + 4) rest)

/-- A search for a tag comes to the `<` that starts it. -/
theorem exists_started {cursor next : Cursor} {tag : Tag}
    (found : cursor.nextTag? = some (tag, next)) :
    ∃ less inside, cursor.Reaches ⟨less, '<' :: inside⟩ ∧
      Bytes.startedTag? less inside = some (tag, next) := by
  -- Every turn of the search goes on at a later place.
  have prepend {cursor later : Cursor} (reaches : cursor.Reaches later)
      (found : ∃ less inside, later.Reaches ⟨less, '<' :: inside⟩ ∧
        Bytes.startedTag? less inside = some (tag, next)) :
      ∃ less inside, cursor.Reaches ⟨less, '<' :: inside⟩ ∧
        Bytes.startedTag? less inside = some (tag, next) := by
    obtain ⟨less, inside, more, started⟩ := found
    exact ⟨less, inside, reaches.trans more, started⟩
  fun_induction nextTag? cursor with
  | case1 => cases found
  | case2 offset rest ih => exact prepend (reaches_pastComment offset rest) (ih found)
  | case3 offset rest reading closed =>
    cases found
    exact ⟨offset, '/' :: rest, .refl _, closed⟩
  | case4 offset rest closed ih => exact prepend ⟨['<'], rfl, rfl⟩ (ih found)
  | case5 offset rest _ other reading opened =>
    cases found
    exact ⟨offset, rest, .refl _, by rw [Bytes.startedTag?.eq_2 _ _ other, opened]⟩
  | case6 offset rest _ _ opened ih => exact prepend ⟨['<'], rfl, rfl⟩ (ih found)
  | case7 offset c rest _ _ _ ih => exact prepend ⟨[c], rfl, rfl⟩ (ih found)

/-- A search without a tag ends at a later place. -/
theorem reaches_searched {start last cursor : Cursor} (behind : start.Reaches last)
    (looked : last.Reaches cursor) : start.Reaches (searched last cursor) := by
  fun_induction searched last cursor with
  | case1 last offset => exact behind
  | case2 last offset rest ih =>
    have past := (behind.trans looked).trans (reaches_pastComment offset rest)
    exact ih past (.refl _)
  | case3 last offset rest _ ih =>
    have past : (⟨offset, '<' :: rest⟩ : Cursor).Reaches ⟨offset + 1, rest⟩ := ⟨['<'], rfl, rfl⟩
    exact ih ((behind.trans looked).trans past) (.refl _)
  | case4 last offset c rest _ _ ih =>
    have past : (⟨offset, c :: rest⟩ : Cursor).Reaches ⟨offset + c.utf8Size, rest⟩ :=
      ⟨[c], rfl, rfl⟩
    exact ih behind (looked.trans past)

/-- A tag that is found is written behind the place where the search started, and the search stops
where the tag does. The `>` of an opening tag is the one that the search for its end comes to. -/
theorem exists_written {cursor next : Cursor} {tag : Tag}
    (found : cursor.nextTag? = some (tag, next)) :
    ∃ start blanks, tag.Written start blanks ∧
      cursor.Reaches ⟨start, tag.render blanks ++ next.rest⟩ ∧ next.offset = tag.span.stop ∧
      (tag.kind ≠ .closing →
        splitAtClose? (.outside false)
            (tag.attributeText ++ (tag.mark ++ (blanks ++ '>' :: next.rest))) =
          some (tag.attributeText ++ (tag.mark ++ blanks), next.rest)) := by
  obtain ⟨start, inside, reaches, started⟩ := exists_started found
  unfold Bytes.startedTag? at started
  split at started
  next rest =>
    obtain ⟨blanks, written, whole, stops, closes⟩ := closingTag?_render started
    rw [whole] at reaches
    exact ⟨start, blanks, written, reaches, stops, fun opens => absurd closes opens⟩
  next =>
    obtain ⟨blanks, written, whole, stops, -, close⟩ := openingTag?_render started
    rw [whole] at reaches
    exact ⟨start, blanks, written, reaches, stops, fun _ => close⟩

end SfcIndex.Text.Cursor
