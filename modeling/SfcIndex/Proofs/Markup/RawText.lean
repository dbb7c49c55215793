import SfcIndex.Proofs.Markup.Correspondence
import SfcIndex.Proofs.Markup.Ended
import SfcIndex.Proofs.Text.Words

/-! # The content of raw-text elements

The content of a raw-text element is jumped over up to the first place where `</` and the element's
name come without a further name character. Nothing before that place is read as a tag. When a
closing tag stands there, or when there is no such place, the element has no children
(`Region.parse_rawText`); a `</name` that goes on in another way does not end the element, and what
follows it is read as markup (`Region.parse_rawText_interrupted`).
-/

namespace SfcIndex.Text.Cursor

open Markup

/-- The content of a raw-text element of the given name goes on up to the first place where the
element may end, or to the end of the text. -/
structure RawContent (name content rest : List Char) : Prop where
  first : ∀ front back, content = front ++ back → back ≠ [] → atRawEnd name (back ++ rest) = false
  ends : rest = [] ∨ atRawEnd name rest = true

/-- One more character that does not end raw text belongs to it. -/
theorem RawContent.cons {name content rest : List Char} (raw : RawContent name content rest)
    {c : Char} (other : atRawEnd name (c :: (content ++ rest)) = false) :
    RawContent name (c :: content) rest := by
  refine ⟨?_, raw.ends⟩
  intro front back split some
  cases front with
  | nil =>
    rw [List.nil_append] at split
    rw [← split]
    exact other
  | cons d front =>
    cases split
    exact raw.first front back rfl some

/-- A jump over raw text goes over the content of its element. -/
theorem skipRaw_rawContent (name : List Char) (cursor : Cursor) :
    ∃ content, cursor.rest = content ++ (cursor.skipRaw name).rest ∧
      (cursor.skipRaw name).offset = cursor.offset + width content ∧
      RawContent name content (cursor.skipRaw name).rest := by
  obtain ⟨offset, rest⟩ := cursor
  change ∃ content, rest = content ++ (skipRaw.go name offset rest).rest ∧
    (skipRaw.go name offset rest).offset = offset + width content ∧
    RawContent name content (skipRaw.go name offset rest).rest
  induction rest generalizing offset with
  | nil => exact ⟨[], rfl, rfl, by simp, .inl rfl⟩
  | cons c rest ih =>
    rw [skipRaw.go]
    by_cases found : atRawEnd name (c :: rest) = true
    · rw [if_pos found]
      exact ⟨[], rfl, rfl, by simp, .inr found⟩
    · rw [if_neg found]
      obtain ⟨content, same, place, raw⟩ := ih (offset + c.utf8Size)
      refine ⟨c :: content, ?_, ?_, raw.cons ?_⟩
      · rw [List.cons_append, ← same]
      · rw [place, width_cons, Nat.add_assoc]
      · rw [← same]
        exact Bool.eq_false_iff.2 found

/-- The code points of name characters. -/
theorem isNameChar_iff {c : Char} :
    isNameChar c = true ↔ (48 ≤ c.toNat ∧ c.toNat ≤ 57) ∨ (65 ≤ c.toNat ∧ c.toNat ≤ 90) ∨
      (97 ≤ c.toNat ∧ c.toNat ≤ 122) ∨ c.toNat = 45 := by
  have dash : c = '-' ↔ c.toNat = 45 := (Char.toNat_inj (d := '-')).symm
  rw [isNameChar, Bool.or_eq_true, isAlphanum_iff, decide_eq_true_iff, dash]
  omega

/-- Lowering a character keeps it a name character. -/
theorem isNameChar_toLower (c : Char) : isNameChar c.toLower = isNameChar c := by
  rw [Bool.eq_iff_iff, isNameChar_iff, isNameChar_iff, toNat_toLower]
  split <;> omega

/-- Text that differs from a name only in case is made of name characters. -/
theorem isNameChar_of_asciiFold {name text : List Char} (named : ∀ c ∈ name, isNameChar c = true)
    (same : asciiFold text = asciiFold name) : ∀ c ∈ text, isNameChar c = true := by
  intro c member
  have folded : c.toLower ∈ asciiFold text := List.mem_map_of_mem member
  rw [same] at folded
  obtain ⟨d, known, lower⟩ := List.mem_map.1 folded
  rw [← isNameChar_toLower, ← lower, isNameChar_toLower]
  exact named d known

/-- A closing tag has the name that follows `</`. -/
theorem kind_name_of_closingTag? {start : Nat} {text : List Char} {tag : Tag} {next : Cursor}
    (found : closingTag? start text = some (tag, next)) :
    tag.kind = .closing ∧ tag.name = String.ofList (text.takeWhile isNameChar) := by
  unfold closingTag? at found
  dsimp only at found
  split at found
  · cases found
    exact ⟨rfl, rfl⟩
  · cases found

/-- A closing tag where a raw-text element may end has the element's name. -/
theorem sameName_of_atRawEnd {name : String} {inside : List Char} {start : Nat} {tag : Tag}
    {next : Cursor} (named : ∀ c ∈ name.toList, isNameChar c = true)
    (ends : atRawEnd name.toList ('<' :: '/' :: inside) = true)
    (found : closingTag? start inside = some (tag, next)) : sameName name tag.name = true := by
  rw [atRawEnd, Bool.and_eq_true, beq_iff_eq] at ends
  obtain ⟨same, follows⟩ := ends
  have stops : ∀ c, (inside.drop name.toList.length).head? = some c → isNameChar c = false := by
    intro c first
    simpa [first] using follows
  obtain ⟨taken, -⟩ := takeWhile_dropWhile_append (isNameChar_of_asciiFold named same) stops
  rw [List.take_append_drop] at taken
  rw [(kind_name_of_closingTag? found).2, taken, sameName, String.toList_ofList, same,
    beq_self_eq_true]

end SfcIndex.Text.Cursor

namespace SfcIndex.Markup

open Text

namespace Region

variable {rawTags : List String} {text : List Char} {document : Region}

/-- Every element was opened by a tag on the way to the place that was reached. -/
theorem Pass.exists_opened {tags : List Tag} {builder : Builder} {cursor : Cursor}
    (pass : Pass rawTags text tags builder cursor) {opening : Opening}
    (member : opening ∈ builder.openings) :
    ∃ earlier before place tag next after, Pass rawTags text earlier before place ∧
      place.nextTag? = some (tag, next) ∧ before.addTag tag = .ok after ∧ tag.kind ≠ .closing ∧
      opening = before.openingOf tag := by
  induction pass with
  | start => simp [Builder.start, Builder.openings, openings] at member
  | @step earlier before after place next tag pass found added ih =>
    rw [Builder.eq_grow_of_addTag added, Builder.openings_grow] at member
    rcases List.mem_append.1 member with known | new
    · exact ih known
    · by_cases closes : tag.kind = .closing
      · rw [if_pos closes] at new
        cases new
      · rw [if_neg closes] at new
        exact ⟨earlier, before, place, tag, next, after, pass, found, added, closes,
          List.mem_singleton.1 new⟩

/-- Regions that have ended stay as they are when the text is read on. -/
theorem Pass.ended_of_addTags {tags : List Tag} {builder last : Builder} {cursor : Cursor}
    (pass : Pass rawTags text tags builder cursor)
    (read : addTags rawTags builder cursor = .ok last) {region : Region} (member : region ∈ builder.ended) : region ∈ last.ended := by
  apply pass.keeps (region ∈ ·.ended) ?_ read member
  intro earlier before cursor tag grown _ added known
  rw [Builder.eq_grow_of_addTag added]
  exact Builder.mem_ended_grow tag known

/-- An element without children so far gets none exactly when the first tag that is heeded closes an
element. -/
theorem Pass.childless_or_hasChild {tags : List Tag} {builder last : Builder} {cursor : Cursor}
    (pass : Pass rawTags text tags builder cursor) {opening : Opening} {outer : List OpenElement}
    (opened : builder.opened = ⟨opening, []⟩ :: outer)
    (read : addTags rawTags builder cursor = .ok last) (length : Nat) :
    ((∀ first, (Region.tags rawTags cursor).find? builder.heeds = some first →
        first.kind = .closing) ∧
      ∃ ending, .node opening ending [] ∈ (last.finish length).children.flatMap descendants) ∨
    ((∃ first, (Region.tags rawTags cursor).find? builder.heeds = some first ∧
        first.kind ≠ .closing) ∧ last.HasChild opening.id) := by
  have foldl := read
  rw [addTags] at foldl
  fun_induction Region.tags rawTags cursor generalizing tags with
  | case1 cursor none =>
    cases foldl
    refine .inl ⟨by simp, .unclosed, Builder.mem_finish length ?_⟩
    rw [opened, List.length_cons, Builder.abandon]
    exact Builder.mem_ended_abandon _ (Builder.close_mem_ended opened .unclosed)
  | case2 cursor tag next found ih =>
    rw [List.foldlM_cons] at foldl
    obtain ⟨grown, added, later⟩ := Offset.exists_of_bind foldl
    have read' : addTags rawTags grown (resume rawTags tag next) = .ok last := by
      rw [addTags]
      exact later
    by_cases heeded : builder.heeds tag = true
    · rw [List.find?_cons_of_pos heeded]
      by_cases closes : tag.kind = .closing
      · left
        refine ⟨fun first is => by cases is; exact closes, ?_⟩
        have named : ∃ other ∈ builder.stack, sameName other.name tag.name = true := by
          rw [Builder.heeds, closes] at heeded
          simpa using heeded
        obtain ⟨ending, ended⟩ := Builder.exists_ended_closeTag opened named
        rw [Builder.addTag, if_pos closes] at added
        cases added
        have added : builder.addTag tag = .ok (builder.closeTag tag) := by
          rw [Builder.addTag, if_pos closes]
        have kept := (pass.step found added).ended_of_addTags read' ended
        exact ⟨ending, Builder.mem_finish length (Builder.mem_ended_abandon _ kept)⟩
      · right
        refine ⟨⟨tag, rfl, closes⟩, ?_⟩
        apply (pass.step found added).keeps (·.HasChild opening.id) ?_ read'
        · rw [Builder.eq_grow_of_addTag added]
          exact Builder.hasChild_grow opened closes
        · intro _ _ _ other _ _ added' has
          rw [Builder.eq_grow_of_addTag added']
          exact has.grow other
    · have same := Builder.addTag_of_unheeded (Bool.eq_false_iff.2 heeded)
      cases added.symm.trans same
      rw [List.find?_cons_of_neg heeded]
      exact ih (pass.step found same) read' later

/-- A node is known by its number. -/
theorem LaidOut.region_eq {length : Nat} (laidOut : document.LaidOut length) {place : Placed}
    (member : place ∈ document.placed.tail) {region : Region}
    (listed : region ∈ document.children.flatMap descendants) (same : region.id = place.region.id) :
    place.region = region := by
  rw [← map_region_tail] at listed
  obtain ⟨other, known, rfl⟩ := List.mem_map.1 listed
  rw [laidOut.numbered.eq_of_id_eq (List.mem_of_mem_tail member) (List.mem_of_mem_tail known)
    same.symm]

/-- What the tree tells about a raw-text element with the given content and the text after it. -/
structure RawElement (rawTags : List String) (text : List Char) (document : Region)
    (content rest : List Char) (region : Region) : Prop where
  stands : ∃ before, text = before ++ (content ++ rest) ∧ width before = region.tagSpan.stop
  raw : Cursor.RawContent region.name.toList content rest
  /-- No element starts in the content. -/
  unread : ∀ other ∈ document.placed.tail, other.region.tagSpan.start < region.tagSpan.stop ∨
    region.tagSpan.stop + width content ≤ other.region.tagSpan.start
  /-- Content that is never ended goes on to the end of the text. -/
  unended : rest = [] → region.ending = .unclosed ∧ region.children = []
  /-- A closing tag after the content ends the element. -/
  ended : ∀ inside tag next, rest = '<' :: '/' :: inside →
    closingTag? (region.tagSpan.stop + width content) inside = some (tag, next) →
    region.ending = .closedBy tag.span ∧ region.children = []
  /-- The element has no children exactly when, of the tags after the content, the first that is
  heeded closes the element or one around it. -/
  childless_iff : ∃ earlier builder,
    Run rawTags text earlier builder ⟨text, ⟨region.tagSpan.stop + width content, rest⟩⟩ ∧
      builder.stack.head? = some region.opening ∧
      (region.children = [] ↔ ∀ first,
        (tags rawTags ⟨region.tagSpan.stop + width content, rest⟩).find? builder.heeds =
          some first → first.kind = .closing)

section Opened

variable {earlier : List Tag} {before after last : Builder} {cursor next : Cursor} {tag : Tag}

/-- Elements start before the end of a tag that was read, or where reading goes on. -/
theorem Pass.tag_apart (reached : Pass rawTags text earlier before cursor)
    (found : cursor.nextTag? = some (tag, next)) (added : before.addTag tag = .ok after)
    {region : Region} (listed : region ∈ (tree rawTags text).children.flatMap descendants) :
    region.tagSpan.start < tag.span.stop ∨
      (resume rawTags tag next).offset ≤ region.tagSpan.start := by
  obtain ⟨site⟩ := Cursor.nextTag?_site found
  have nonempty := site.start_lt_stop
  obtain ⟨builder, other, known, is⟩ := exists_tag_of_mem listed
  have span_eq : region.tagSpan = other.span := by
    rw [tagSpan, is]
    rfl
  rw [span_eq]
  rw [(reached.step found added).tags_eq] at known
  rcases List.mem_append.1 known with read | later
  · left
    rcases List.mem_append.1 read with far | this
    · have := reached.tag_after found far
      omega
    · rw [List.mem_singleton.1 this]
      exact nonempty
  · right
    exact ((inOrder_tags rawTags (resume rawTags tag next)).pairwise.1 other later).1

/-- A self-closing tag is an element of its own. -/
theorem Pass.mem_ended_of_selfClosing (reached : Pass rawTags text earlier before cursor)
    (found : cursor.nextTag? = some (tag, next)) (added : before.addTag tag = .ok after)
    (kind : tag.kind = .selfClosing)
    (read : addTags rawTags after (resume rawTags tag next) = .ok last) :
    .node (before.openingOf tag) .selfClosing [] ∈ last.ended := by
  apply (reached.step found added).ended_of_addTags read
  rw [Builder.eq_grow_of_addTag added, Builder.grow, kind]
  dsimp only
  rw [Builder.mem_ended_append, descendants_node]
  exact .inl List.mem_cons_self

/-- An opening tag opens an element. -/
theorem opened_of_addTag (added : before.addTag tag = .ok after) (kind : tag.kind = .opening) :
    after.opened = ⟨before.openingOf tag, []⟩ :: before.opened := by
  rw [Builder.eq_grow_of_addTag added, Builder.grow, kind]

/-- An element with nothing after its tag has no children and no end. -/
theorem mem_finish_of_rest_nil (added : before.addTag tag = .ok after)
    (kind : tag.kind = .opening) (rest : (resume rawTags tag next).rest = [])
    (read : addTags rawTags after (resume rawTags tag next) = .ok last) (length : Nat) :
    .node (before.openingOf tag) .unclosed [] ∈
      (last.finish length).children.flatMap descendants := by
  have opened := opened_of_addTag added kind
  obtain rfl : after = last := by
    rw [addTags, tags_of_nil rest] at read
    cases read
    rfl
  apply Builder.mem_finish
  rw [opened, List.length_cons, Builder.abandon]
  exact Builder.mem_ended_abandon _ (Builder.close_mem_ended opened .unclosed)

/-- An element whose closing tag comes next has no children. -/
theorem Pass.mem_ended_of_closingTag? (reached : Pass rawTags text earlier before cursor)
    (found : cursor.nextTag? = some (tag, next)) (added : before.addTag tag = .ok after)
    (kind : tag.kind = .opening) {inside : List Char} {closing : Tag} {behind : Cursor}
    (rest : (resume rawTags tag next).rest = '<' :: '/' :: inside)
    (closed : closingTag? (resume rawTags tag next).offset inside = some (closing, behind))
    (named : sameName tag.name closing.name = true)
    (read : addTags rawTags after (resume rawTags tag next) = .ok last) :
    .node (before.openingOf tag) (.closedBy closing.span) [] ∈ last.ended := by
  have opened := opened_of_addTag added kind
  have reached' := reached.step found added
  have follows := Cursor.nextTag?_of_closingTag? rest closed
  have closes := (Cursor.kind_name_of_closingTag? closed).1
  have ended : after.closeTag closing = after.closeInnermost (.closedBy closing.span) := by
    rw [Builder.closeTag, opened, List.findIdx?_cons]
    simp only [Builder.openingOf, named]
    rfl
  have added' : after.addTag closing = .ok (after.closeInnermost (.closedBy closing.span)) := by
    rw [Builder.addTag, if_pos closes, ended]
  have read' : addTags rawTags (after.closeInnermost (.closedBy closing.span))
      (resume rawTags closing behind) = .ok last := by
    rw [← (reached'.step follows added').addTags_eq, reached'.addTags_eq]
    exact read
  apply (reached'.step follows added').ended_of_addTags read'
  exact Builder.close_mem_ended opened _

end Opened

/-- What reading a raw-text element tells about its node. -/
theorem Pass.rawElement {earlier : List Tag} {before after last : Builder} {cursor next : Cursor}
    {tag : Tag} (fits : width text ≤ Offset.limit)
    (reached : Pass rawTags text earlier before cursor)
    (found : cursor.nextTag? = some (tag, next)) (added : before.addTag tag = .ok after)
    (kind : tag.kind = .opening) (raw : rawTags.any (sameName · tag.name) = true)
    (read : addTags rawTags after (resume rawTags tag next) = .ok last)
    (document_eq : last.finish (width text) = tree rawTags text)
    {place : Placed} (member : place ∈ (last.finish (width text)).placed.tail)
    (is : place.region.opening = before.openingOf tag) :
    ∃ content rest,
      RawElement rawTags text (last.finish (width text)) content rest place.region := by
  have laidOut : (last.finish (width text)).LaidOut (width text) := by
    rw [document_eq]
    exact tree_laid rawTags text
  have tag_eq : place.region.tagSpan = tag.span := by
    rw [tagSpan, is]
    rfl
  have name_eq : place.region.name = tag.name := by
    rw [name, is]
    rfl
  have id_eq : (before.openingOf tag).id = place.region.id := by
    rw [Region.id, is]
  obtain ⟨site⟩ := Cursor.nextTag?_site found
  have resumed : resume rawTags tag next = next.skipRaw tag.name.toList := by
    rw [resume, kind, raw]
    rfl
  obtain ⟨content, same, jump, rawContent⟩ := Cursor.skipRaw_rawContent tag.name.toList next
  rw [← resumed] at same jump rawContent
  have reached' := reached.step found added
  have cursor_eq : (⟨place.region.tagSpan.stop + width content, (resume rawTags tag next).rest⟩ :
      Cursor) = resume rawTags tag next := by
    rw [tag_eq, ← site.next_eq, ← jump]
  refine ⟨content, (resume rawTags tag next).rest, ?_, ?_, ?_, ?_, ?_, ?_⟩
  · obtain ⟨front, whole, offset⟩ := reached.on
    obtain ⟨skipped, written, split, start, stop⟩ := site.exists_written
    refine ⟨front ++ (skipped ++ written), ?_, ?_⟩
    · rw [whole, split, same]
      simp
    · rw [tag_eq, width_append, width_append]
      omega
  · rw [name_eq]
    exact rawContent
  · intro other known
    have listed : other.region ∈ (tree rawTags text).children.flatMap descendants := by
      rw [← document_eq, ← map_region_tail]
      exact List.mem_map_of_mem known
    rw [tag_eq, ← site.next_eq, ← jump, site.next_eq]
    exact reached.tag_apart found added listed
  · intro none
    have ended := mem_finish_of_rest_nil added kind none read (width text)
    rw [laidOut.region_eq member ended id_eq]
    exact ⟨rfl, rfl⟩
  · intro inside closing behind marked closed
    rw [tag_eq, ← site.next_eq, ← jump] at closed
    have named : sameName tag.name closing.name = true := by
      apply Cursor.sameName_of_atRawEnd site.named ?_ closed
      rcases rawContent.ends with none | ends
      · rw [none] at marked
        cases marked
      · rwa [← marked]
    have ended := reached.mem_ended_of_closingTag? found added kind marked closed named read
    have listed := Builder.mem_finish (width text) (Builder.mem_ended_abandon _ ended)
    rw [laidOut.region_eq member listed id_eq]
    exact ⟨rfl, rfl⟩
  · rw [cursor_eq]
    have opened := opened_of_addTag added kind
    refine ⟨_, after, reached'.run fits, by rw [Builder.stack, opened, is]; rfl, ?_⟩
    rcases reached'.childless_or_hasChild opened read (width text) with
      ⟨closes, ending, listed⟩ | ⟨⟨first, heeded, opens⟩, has⟩
    · refine iff_of_true ?_ closes
      rw [laidOut.region_eq member listed id_eq, children_node]
    · obtain ⟨region, listed, same, some⟩ := has.finish (width text)
      rw [laidOut.region_eq member listed (same.trans id_eq)]
      exact iff_of_false some fun all => opens (all first heeded)

/-- A text that ends below the limit of offsets can be read, and the elements with raw text keep
their content to themselves up to the first place where they may end. -/
theorem parse_rawText (rawTags : List String) {text : List Char}
    (fits : width text ≤ Offset.limit) :
    ∃ document, parse rawTags text = .ok document ∧
      ∀ place ∈ document.placed.tail, rawTags.any (sameName · place.region.name) = true →
        (place.region.ending = .selfClosing ∧ place.region.children = []) ∨
          ∃ content rest, RawElement rawTags text document content rest place.region := by
  obtain ⟨tags, last, stop, pass, -, read, document_eq⟩ := exists_pass rawTags fits
  refine ⟨_, parse_eq_ok rawTags fits, ?_⟩
  rw [document_eq]
  intro place member raw
  have opened : place.region.opening ∈ last.openings := by
    rw [← last.openings_children_finish (width text), ← map_opening_flatMap, ← map_region_tail,
      List.map_map]
    exact List.mem_map_of_mem (f := opening ∘ Placed.region) member
  obtain ⟨earlier, before, cursor, tag, next, after, reached, found, added, opens, is⟩ :=
    pass.exists_opened opened
  have name_eq : place.region.name = tag.name := by
    rw [name, is]
    rfl
  rw [(reached.step found added).addTags_eq] at read
  cases kind : tag.kind with
  | closing => exact absurd kind opens
  | selfClosing =>
    left
    have ended := reached.mem_ended_of_selfClosing found added kind read
    have listed := Builder.mem_finish (width text) (Builder.mem_ended_abandon _ ended)
    have laidOut := tree_laid rawTags text
    rw [document_eq] at laidOut
    rw [laidOut.region_eq member listed (by rw [id_node, Region.id, is])]
    exact ⟨rfl, rfl⟩
  | opening =>
    right
    rw [name_eq] at raw
    exact reached.rawElement fits found added kind raw read document_eq.symm member is

/-- So it is for a script without an end and for one in which a word with its name is no tag. -/
theorem parse_rawText_unended :
    let text := "<Script></scripts><b></script><script><b>".toList
    width text ≤ Offset.limit ∧ ∃ document, parse ["script"] text = .ok document ∧
      ∀ place ∈ document.placed.tail, ["script"].any (sameName · place.region.name) = true →
        (place.region.ending = .selfClosing ∧ place.region.children = []) ∨
          ∃ content rest, RawElement ["script"] text document content rest place.region := by
  intro text
  have fits : width text ≤ Offset.limit := by decide
  exact ⟨fits, parse_rawText ["script"] fits⟩

/-- A `</` with the name of a raw-text element that is no closing tag does not end the element, but
what follows it is read as markup: the element has a child. -/
theorem parse_rawText_interrupted :
    let text := "<script></script<b></b></script>".toList
    (parse defaultRawTags text).toOption.map (·.placed.map fun place =>
        (place.region.name, place.region.children.map Region.name, place.region.contentSpan?)) =
      some [("#document", ["script"], some ⟨0, 32⟩), ("script", ["b"], some ⟨8, 23⟩),
        ("b", [], some ⟨19, 19⟩)] := by
  intro text
  have fits : width text ≤ Offset.limit := by decide
  rw [parse_eq_ok defaultRawTags fits]
  decide +kernel

end Region

end SfcIndex.Markup
