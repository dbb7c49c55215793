import Mathlib.Data.List.TakeWhile
import SfcIndex.Markup.Region

/-! # The tags of a text

Where a tag is found and what of the text it covers (`Cursor.nextTag?_site`). The tags of a text as
they come when places may have any size (`Region.tags`) are in the order of the text and do not
overlap (`Region.inOrder_tags`).
-/

namespace SfcIndex.Markup

open Text

/-- A tag in the text between two cursors: what stands before it, and in the tag what stands around
its attributes. -/
structure Tag.Site (tag : Tag) (cursor next : Cursor) where
  skipped : List Char
  lead : List Char
  tail : List Char
  text : cursor.rest = skipped ++ '<' :: (lead ++ (tag.attributeText ++ (tail ++ '>' :: next.rest)))
  start_eq : tag.span.start = cursor.offset + width skipped
  attributeStart_eq : tag.attributeSpan.start = tag.span.start + 1 + width lead
  attributeStop_eq : tag.attributeSpan.stop = tag.attributeSpan.start + width tag.attributeText
  stop_eq : tag.span.stop = tag.attributeSpan.stop + width tail + 1
  next_eq : next.offset = tag.span.stop
  named : ∀ c ∈ tag.name.toList, isNameChar c = true
  tail_marks : ∀ c ∈ tail, isAsciiBlank c = true ∨ c = '/'

namespace Tag.Site

variable {tag : Tag} {cursor next : Cursor}

/-- A site is still one when more text is skipped before it. -/
def skip {outer : Cursor} (site : tag.Site cursor next) (front : List Char)
    (text : outer.rest = front ++ cursor.rest)
    (offset : cursor.offset = outer.offset + width front) :
    tag.Site outer next where
  skipped := front ++ site.skipped
  lead := site.lead
  tail := site.tail
  text := by rw [text, site.text, List.append_assoc]
  start_eq := by rw [site.start_eq, offset, width_append, Nat.add_assoc]
  attributeStart_eq := site.attributeStart_eq
  attributeStop_eq := site.attributeStop_eq
  stop_eq := site.stop_eq
  next_eq := site.next_eq
  named := site.named
  tail_marks := site.tail_marks

/-- A tag is not empty. -/
theorem start_lt_stop (site : tag.Site cursor next) : tag.span.start < tag.span.stop := by
  have := site.attributeStart_eq
  have := site.attributeStop_eq
  have := site.stop_eq
  omega

/-- The two cursors are places in the same text. -/
theorem offset_add_width (site : tag.Site cursor next) :
    next.offset + width next.rest = cursor.offset + width cursor.rest := by
  have less : '<'.utf8Size = 1 := rfl
  have greater : '>'.utf8Size = 1 := rfl
  have := site.start_eq
  have := site.attributeStart_eq
  have := site.attributeStop_eq
  have := site.stop_eq
  have := site.next_eq
  rw [site.text]
  simp only [width_append, width_cons, less, greater]
  omega

end Tag.Site

/-- A closing tag is read where it stands. -/
theorem closingTag?_site {start : Nat} {text : List Char} {tag : Tag} {next : Cursor}
    (found : closingTag? start text = some (tag, next)) :
    Nonempty (tag.Site ⟨start, '<' :: '/' :: text⟩ next) := by
  unfold closingTag? at found
  dsimp only at found
  split at found
  next rest ends =>
    cases found
    have slash : '/'.utf8Size = 1 := rfl
    refine ⟨⟨[], '/' :: text.takeWhile isNameChar,
      (text.dropWhile isNameChar).takeWhile isAsciiBlank, ?_, rfl, ?_, rfl, ?_, rfl, ?_, ?_⟩⟩
    · have blanks := List.takeWhile_append_dropWhile (p := isAsciiBlank)
        (l := text.dropWhile isNameChar)
      have name := List.takeWhile_append_dropWhile (p := isNameChar) (l := text)
      rw [ends] at blanks
      simp [blanks, name]
    · simp only [Span.emptyAt, width_cons, slash]
      omega
    · simp [Span.emptyAt]
    · intro c member
      rw [String.toList_ofList] at member
      exact List.mem_takeWhile_imp member
    · intro c member
      exact .inl (List.mem_takeWhile_imp member)
  next => simp at found

/-- Cutting off the blanks at the end leaves the start of a text. -/
theorem trimBlankEnd_begins (text : List Char) :
    ∃ blanks, trimBlankEnd text ++ blanks = text ∧ ∀ c ∈ blanks, isAsciiBlank c = true := by
  refine ⟨(text.reverse.takeWhile isAsciiBlank).reverse, ?_, ?_⟩
  · rw [trimBlankEnd, ← List.reverse_append, List.takeWhile_append_dropWhile, List.reverse_reverse]
  · intro c member
    exact List.mem_takeWhile_imp (List.mem_reverse.1 member)

/-- A final `/` belongs to the end of a tag and not to its attributes. -/
theorem attributes_begin (inside : List Char) :
    ∃ tail,
      (if (trimBlankEnd inside).getLast? = some '/' then (trimBlankEnd inside).dropLast
        else trimBlankEnd inside) ++ tail = inside ∧
      ∀ c ∈ tail, isAsciiBlank c = true ∨ c = '/' := by
  obtain ⟨blanks, trimmed, blank⟩ := trimBlankEnd_begins inside
  split
  next slash =>
    obtain ⟨front, ends⟩ := List.getLast?_eq_some_iff.1 slash
    refine ⟨'/' :: blanks, ?_, ?_⟩
    · rw [ends] at trimmed ⊢
      rw [List.dropLast_concat, ← trimmed, List.append_assoc, List.singleton_append]
    · intro c member
      exact (List.mem_cons.1 member).symm.imp_left (blank c)
  next => exact ⟨blanks, trimmed, fun c member => .inl (blank c member)⟩

/-- An opening tag is read where it stands. -/
theorem openingTag?_site {start : Nat} {text : List Char} {tag : Tag} {next : Cursor}
    (found : openingTag? start text = some (tag, next)) :
    Nonempty (tag.Site ⟨start, '<' :: text⟩ next) := by
  unfold openingTag? at found
  dsimp only at found
  split at found
  next => simp at found
  next =>
    split at found
    next => simp at found
    next inside rest closes =>
      have whole := eq_of_splitAtClose? closes
      have name := List.takeWhile_append_dropWhile (p := isNameChar) (l := text)
      obtain ⟨tail, same, marks⟩ := attributes_begin inside
      cases found
      refine ⟨⟨[], text.takeWhile isNameChar, tail, ?_, rfl, rfl, rfl, ?_, rfl, ?_, marks⟩⟩
      · rw [List.nil_append, ← List.append_assoc _ tail, same, ← whole, name]
      · have size := congrArg width same
        rw [width_append] at size
        dsimp only
        omega
      · intro c member
        rw [String.toList_ofList] at member
        exact List.mem_takeWhile_imp member

/-- A comment is skipped as a part of the text. -/
theorem pastComment_skips (offset : Nat) (text : List Char) :
    ∃ skipped, text = skipped ++ (pastComment offset text).rest ∧
      (pastComment offset text).offset = offset + width skipped := by
  fun_induction pastComment offset text with
  | case1 offset => exact ⟨[], rfl, rfl⟩
  | case2 offset rest => exact ⟨['-', '-', '>'], rfl, rfl⟩
  | case3 offset c rest _ ih =>
    obtain ⟨skipped, same, place⟩ := ih
    refine ⟨c :: skipped, ?_, ?_⟩
    · rw [List.cons_append, ← same]
    · rw [place, width_cons, Nat.add_assoc]

end SfcIndex.Markup

namespace SfcIndex.Text.Cursor

open Markup

/-- What comes after a `<` that starts no comment and no closing tag. -/
theorem nextTag?_angle {offset : Nat} {text : List Char}
    (comment : ∀ rest, text ≠ '!' :: '-' :: '-' :: rest) (closing : ∀ rest, text ≠ '/' :: rest) :
    nextTag? ⟨offset, '<' :: text⟩ =
      match openingTag? offset text with
      | some found => some found
      | none => nextTag? ⟨offset + 1, text⟩ := by
  rw [nextTag?.eq_def]
  split
  next same => cases same
  next same =>
    cases same
    exact absurd rfl (comment _)
  next same =>
    cases same
    exact absurd rfl (closing _)
  next same =>
    cases same
    rfl
  next other same =>
    cases same
    exact absurd rfl other

/-- The search for tags passes over a character other than `<`. -/
theorem nextTag?_of_ne {c : Char} (other : c ≠ '<') (offset : Nat) (rest : List Char) :
    nextTag? ⟨offset, c :: rest⟩ = nextTag? ⟨offset + c.utf8Size, rest⟩ := by
  rw [nextTag?.eq_def]
  split
  next same => cases same
  next same =>
    cases same
    exact absurd rfl other
  next same =>
    cases same
    exact absurd rfl other
  next same =>
    cases same
    exact absurd rfl other
  next same =>
    cases same
    rfl

/-- The next tag stands in the text between the place before it and the place after it. -/
theorem nextTag?_site {cursor next : Cursor} {tag : Tag}
    (found : cursor.nextTag? = some (tag, next)) : Nonempty (tag.Site cursor next) := by
  fun_induction nextTag? cursor with
  | case1 => simp at found
  | case2 offset rest ih =>
    obtain ⟨site⟩ := ih found
    obtain ⟨skipped, same, place⟩ := pastComment_skips (offset + 4) rest
    refine ⟨site.skip ('<' :: '!' :: '-' :: '-' :: skipped) ?_ ?_⟩
    · simp [← same]
    · have less : '<'.utf8Size = 1 := rfl
      have bang : '!'.utf8Size = 1 := rfl
      have dash : '-'.utf8Size = 1 := rfl
      rw [place]
      simp only [width_cons, less, bang, dash]
      omega
  | case3 offset rest reading closed => exact closingTag?_site (closed.trans found)
  | case4 offset rest closed ih =>
    obtain ⟨site⟩ := ih found
    exact ⟨site.skip ['<'] rfl rfl⟩
  | case5 offset rest _ _ reading opened => exact openingTag?_site (opened.trans found)
  | case6 offset rest _ _ opened ih =>
    obtain ⟨site⟩ := ih found
    exact ⟨site.skip ['<'] rfl rfl⟩
  | case7 offset c rest _ _ _ ih =>
    obtain ⟨site⟩ := ih found
    exact ⟨site.skip [c] rfl rfl⟩

/-- A jump over raw text skips a part of the text. -/
theorem skipRaw_skips (name : List Char) (cursor : Cursor) :
    ∃ skipped, cursor.rest = skipped ++ (cursor.skipRaw name).rest ∧
      (cursor.skipRaw name).offset = cursor.offset + width skipped := by
  obtain ⟨offset, rest⟩ := cursor
  change ∃ skipped, rest = skipped ++ (skipRaw.go name offset rest).rest ∧
    (skipRaw.go name offset rest).offset = offset + width skipped
  induction rest generalizing offset with
  | nil => exact ⟨[], rfl, rfl⟩
  | cons c rest ih =>
    rw [skipRaw.go]
    split
    · exact ⟨[], rfl, rfl⟩
    · obtain ⟨skipped, same, place⟩ := ih (offset + c.utf8Size)
      refine ⟨c :: skipped, ?_, ?_⟩
      · rw [List.cons_append, ← same]
      · rw [place, width_cons, Nat.add_assoc]

end SfcIndex.Text.Cursor

namespace SfcIndex.Markup

open Text

/-- Tags one after the other between two offsets, each with its attributes inside it. -/
def Tag.InOrder : Nat → List Tag → Nat → Prop
  | start, [], stop => start ≤ stop
  | start, tag :: more, stop =>
    start ≤ tag.span.start ∧ tag.span.start < tag.span.stop ∧
      tag.attributeSpan.start + width tag.attributeText ≤ tag.span.stop ∧
      Tag.InOrder tag.span.stop more stop

/-- Tags in order may start earlier. -/
theorem Tag.InOrder.mono_start {start start' stop : Nat} {tags : List Tag}
    (order : Tag.InOrder start tags stop) (earlier : start' ≤ start) :
    Tag.InOrder start' tags stop := by
  cases tags with
  | nil => exact Nat.le_trans earlier order
  | cons tag more => exact ⟨Nat.le_trans earlier order.1, order.2⟩

/-- Tags in order do not stop in front of their start. -/
theorem Tag.InOrder.start_le_stop {start stop : Nat} {tags : List Tag}
    (order : Tag.InOrder start tags stop) : start ≤ stop := by
  induction tags generalizing start with
  | nil => exact order
  | cons tag more ih =>
    obtain ⟨first, nonempty, -, later⟩ := order
    have := ih later
    omega

/-- The attributes of tags in order end where these stop. -/
theorem Tag.InOrder.attributes_le {start stop : Nat} {tags : List Tag}
    (order : Tag.InOrder start tags stop) {tag : Tag} (member : tag ∈ tags) :
    tag.attributeSpan.start + width tag.attributeText ≤ stop := by
  induction tags generalizing start with
  | nil => simp at member
  | cons first more ih =>
    obtain ⟨-, -, inside, later⟩ := order
    rcases List.mem_cons.1 member with rfl | behind
    · exact Nat.le_trans inside later.start_le_stop
    · exact ih later behind

namespace Region

/-- A tag is passed with the `>` at its end. -/
theorem exists_of_nextTag? {cursor next : Cursor} {tag : Tag}
    (found : cursor.nextTag? = some (tag, next)) :
    ∃ before, cursor.rest = before ++ '>' :: next.rest ∧
      next.offset = cursor.offset + width before + 1 := by
  obtain ⟨site⟩ := Cursor.nextTag?_site found
  refine ⟨site.skipped ++ '<' :: (site.lead ++ (tag.attributeText ++ site.tail)), ?_, ?_⟩
  · rw [site.text]
    simp
  · have less : '<'.utf8Size = 1 := rfl
    have := site.start_eq
    have := site.attributeStart_eq
    have := site.attributeStop_eq
    have := site.stop_eq
    have := site.next_eq
    simp only [width_append, width_cons, less]
    omega

/-- There is not more text left where the scan goes on. -/
theorem length_resume_le (rawTags : List String) (tag : Tag) (next : Cursor) :
    (resume rawTags tag next).rest.length ≤ next.rest.length := by
  unfold resume
  split
  · exact Cursor.length_skipRaw_le _ _
  · exact Nat.le_refl _

/-- The tags of a text from a place on, without those in the content of raw-text elements. -/
def tags (rawTags : List String) (cursor : Cursor) : List Tag :=
  match _read : cursor.nextTag? with
  | none => []
  | some (tag, next) => tag :: tags rawTags (resume rawTags tag next)
  termination_by cursor.rest.length
  decreasing_by
    have shorter := Cursor.length_nextTag?_lt _read
    have := length_resume_le rawTags tag next
    omega

/-- Without a next tag there are none. -/
theorem tags_of_none {rawTags : List String} {cursor : Cursor} (none : cursor.nextTag? = none) :
    tags rawTags cursor = [] := by
  rw [tags]
  split
  next => rfl
  next tag next found => simp [none] at found

/-- The next tag comes first, and then those where the scan goes on. -/
theorem tags_of_some {rawTags : List String} {cursor next : Cursor} {tag : Tag}
    (found : cursor.nextTag? = some (tag, next)) :
    tags rawTags cursor = tag :: tags rawTags (resume rawTags tag next) := by
  rw [tags]
  split
  next none => simp [found] at none
  next other after same =>
    rw [found] at same
    cases same
    rfl

/-- Scanning goes on after a part of the text that is skipped. -/
theorem resume_skips (rawTags : List String) (tag : Tag) (next : Cursor) :
    ∃ skipped, next.rest = skipped ++ (resume rawTags tag next).rest ∧
      (resume rawTags tag next).offset = next.offset + width skipped := by
  unfold resume
  split
  · exact Cursor.skipRaw_skips _ _
  · exact ⟨[], rfl, rfl⟩

/-- The tags of a text come one after the other from its start to its end. -/
theorem inOrder_tags (rawTags : List String) (cursor : Cursor) :
    Tag.InOrder cursor.offset (tags rawTags cursor) (cursor.offset + width cursor.rest) := by
  fun_induction tags rawTags cursor with
  | case1 cursor none => exact Nat.le_add_right _ _
  | case2 cursor tag next found ih =>
    obtain ⟨site⟩ := Cursor.nextTag?_site found
    obtain ⟨skipped, same, place⟩ := resume_skips rawTags tag next
    have start := site.start_eq
    have ends := site.offset_add_width
    have size := congrArg width same
    rw [width_append] at size
    refine ⟨by omega, site.start_lt_stop, ?_, ?_⟩
    · have := site.attributeStop_eq
      have := site.stop_eq
      omega
    · have stop : (resume rawTags tag next).offset + width (resume rawTags tag next).rest =
          cursor.offset + width cursor.rest := by omega
      rw [stop] at ih
      exact ih.mono_start (by have := site.next_eq; omega)

end Region

end SfcIndex.Markup
