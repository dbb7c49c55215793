import Mathlib.Data.List.Nodup
import SfcIndex.Proofs.Markup.Edit
import SfcIndex.Proofs.Markup.Entries
import SfcIndex.Proofs.Markup.LongText
import SfcIndex.Proofs.Markup.Order
import SfcIndex.Proofs.Markup.Run
import SfcIndex.Proofs.Markup.Values

/-! # Tags and elements

Every opening or self-closing tag of a text becomes one element, and every closing tag closes one
element or none (`Region.parse_tagsCorrespond`). The two tags of a closed element and its content
make up its text.
-/

namespace SfcIndex.Markup

open Text

/-- The closing tag of an element that has one. -/
def Entry.closing? (entry : Entry) : Option Span :=
  match entry.ending with
  | .closedBy tag => some tag
  | _ => none

/-- An element has a closing tag when it is closed by it. -/
theorem Entry.closing?_eq_some {entry : Entry} {span : Span} :
    entry.closing? = some span ↔ entry.ending = .closedBy span := by
  obtain ⟨opening, ending⟩ := entry
  cases ending with
  | closedBy tag => simp [closing?]
  | _ => simp [closing?]

namespace Handles

variable {tag : Tag} {entries entries' : List Entry} {stack stack' : List Opening}

/-- The elements are the tags that open one, in their order. -/
theorem map_entries (handles : Handles tag entries stack entries' stack') :
    entries'.map (fun entry =>
        (entry.opening.name, entry.opening.span, decide (entry.ending = .selfClosing))) =
      entries.map (fun entry =>
          (entry.opening.name, entry.opening.span, decide (entry.ending = .selfClosing))) ++
        ([tag].filter (·.kind ≠ .closing)).map fun tag =>
          (tag.name, tag.span, decide (tag.kind = .selfClosing)) := by
  cases handles with
  | opens kind name span => simp [kind, name, span]
  | single kind name span => simp [kind, name, span]
  | closes kind => simp [kind]
  | ignores kind => simp [kind]

/-- An element that has ended stays as it is. -/
theorem mem_of_mem (handles : Handles tag entries stack entries' stack') {entry : Entry}
    (member : entry ∈ entries) (ended : entry.ending ≠ .unclosed) : entry ∈ entries' := by
  cases handles with
  | opens => exact List.mem_append_left _ member
  | single => exact List.mem_append_left _ member
  | closes =>
    rcases List.mem_append.1 member with before | behind
    · exact List.mem_append_left _ before
    · rcases List.mem_cons.1 behind with rfl | after
      · exact absurd rfl ended
      · exact List.mem_append_right _ (List.mem_cons_of_mem _ after)
  | ignores => exact member

/-- A closed element has the name of its closing tag. -/
theorem named_of_mem (handles : Handles tag entries stack entries' stack') {entry : Entry}
    {span : Span} (member : entry ∈ entries') (closed : entry.ending = .closedBy span) :
    entry ∈ entries ∨ (tag.kind = .closing ∧ tag.span = span ∧
      sameName entry.opening.name tag.name = true) := by
  cases handles with
  | opens =>
    rcases List.mem_append.1 member with before | new
    · exact .inl before
    · cases List.mem_singleton.1 new
      cases closed
  | single =>
    rcases List.mem_append.1 member with before | new
    · exact .inl before
    · cases List.mem_singleton.1 new
      cases closed
  | closes kind named =>
    rcases List.mem_append.1 member with before | behind
    · exact .inl (List.mem_append_left _ before)
    · rcases List.mem_cons.1 behind with rfl | after
      · cases closed
        exact .inr ⟨kind, rfl, named⟩
      · exact .inl (List.mem_append_right _ (List.mem_cons_of_mem _ after))
  | ignores => exact .inl member

/-- A tag that is new closes no second element. -/
theorem closings_nodup (handles : Handles tag entries stack entries' stack')
    (nodup : (entries.filterMap Entry.closing?).Nodup)
    (fresh : ∀ entry ∈ entries, entry.ending ≠ .closedBy tag.span) :
    (entries'.filterMap Entry.closing?).Nodup := by
  cases handles with
  | opens =>
    rw [List.filterMap_append, List.filterMap_cons_none rfl, List.filterMap_nil, List.append_nil]
    exact nodup
  | single =>
    rw [List.filterMap_append, List.filterMap_cons_none rfl, List.filterMap_nil, List.append_nil]
    exact nodup
  | @closes front back inner outer opening kind named latest =>
    rw [List.filterMap_append, List.filterMap_cons_none rfl] at nodup
    have adds : Entry.closing? ⟨opening, .closedBy tag.span⟩ = some tag.span := rfl
    rw [List.filterMap_append, List.filterMap_cons_some adds, List.nodup_middle, List.nodup_cons,
      ← List.filterMap_append]
    refine ⟨?_, by rwa [List.filterMap_append]⟩
    intro present
    obtain ⟨entry, member, is⟩ := List.mem_filterMap.1 present
    have known : entry ∈ front ++ ⟨opening, .unclosed⟩ :: back := by
      rcases List.mem_append.1 member with before | after
      · exact List.mem_append_left _ before
      · exact List.mem_append_right _ (List.mem_cons_of_mem _ after)
    exact fresh entry known (Entry.closing?_eq_some.1 is)
  | ignores => exact nodup

end Handles

/-- Tags in order take up bytes, and each stands before the next. -/
theorem Tag.InOrder.pairwise {start stop : Nat} {tags : List Tag}
    (order : Tag.InOrder start tags stop) :
    (∀ tag ∈ tags, start ≤ tag.span.start ∧ tag.span.start < tag.span.stop) ∧
      tags.Pairwise fun first second => first.span.stop ≤ second.span.start := by
  induction tags generalizing start with
  | nil => exact ⟨by simp, .nil⟩
  | cons first more ih =>
    obtain ⟨after, nonempty, -, later⟩ := order
    obtain ⟨bounds, ordered⟩ := ih later
    refine ⟨?_, List.pairwise_cons.2 ⟨fun tag member => (bounds tag member).1, ordered⟩⟩
    intro tag member
    rcases List.mem_cons.1 member with rfl | behind
    · exact ⟨after, nonempty⟩
    · have := bounds tag behind
      omega

namespace Region.Pass

variable {rawTags : List String} {text : List Char} {tags : List Tag} {builder grown : Builder}
  {cursor next : Cursor} {tag : Tag}

/-- Every tag on the way does what a tag can do. -/
theorem handles (pass : Pass rawTags text tags builder cursor)
    (added : builder.addTag tag = .ok grown) :
    Handles tag builder.entries builder.stack grown.entries grown.stack := by
  rw [Builder.eq_grow_of_addTag added]
  exact pass.nests.handles tag

/-- The elements are the tags that open one, in their order. -/
theorem map_entries (pass : Pass rawTags text tags builder cursor) :
    builder.entries.map (fun entry =>
        (entry.opening.name, entry.opening.span, decide (entry.ending = .selfClosing))) =
      (tags.filter (·.kind ≠ .closing)).map fun tag =>
        (tag.name, tag.span, decide (tag.kind = .selfClosing)) := by
  induction pass with
  | start => simp [Builder.start, Builder.entries, Region.entries]
  | step pass _ added ih =>
    rw [(pass.handles added).map_entries, ih, List.filter_append, List.map_append]

/-- The next tag stands behind all tags before it. -/
theorem tag_after (pass : Pass rawTags text tags builder cursor)
    (found : cursor.nextTag? = some (tag, next)) {earlier : Tag} (member : earlier ∈ tags) :
    earlier.span.start < earlier.span.stop ∧ earlier.span.stop ≤ tag.span.start := by
  have order := (inOrder_tags rawTags (.atStart text)).pairwise
  rw [pass.tags_eq, tags_of_some found] at order
  have apart := (List.pairwise_append.1 order.2).2.2 earlier member tag List.mem_cons_self
  exact ⟨(order.1 earlier (List.mem_append_left _ member)).2, apart⟩

/-- A closed element has the name of a closing tag before the place that was reached. -/
theorem exists_closing (pass : Pass rawTags text tags builder cursor) {entry : Entry} {span : Span}
    (member : entry ∈ builder.entries) (closed : entry.ending = .closedBy span) :
    ∃ tag ∈ tags, tag.kind = .closing ∧ tag.span = span ∧
      sameName entry.opening.name tag.name = true := by
  induction pass with
  | start => simp [Builder.start, Builder.entries, Region.entries] at member
  | step pass _ added ih =>
    rcases (pass.handles added).named_of_mem member closed with before | new
    · obtain ⟨tag, known, is⟩ := ih before
      exact ⟨tag, List.mem_append_left _ known, is⟩
    · exact ⟨_, List.mem_append_right _ (List.mem_singleton_self _), new⟩

/-- No two elements have the same closing tag. -/
theorem closings_nodup (pass : Pass rawTags text tags builder cursor) :
    (builder.entries.filterMap Entry.closing?).Nodup := by
  induction pass with
  | start => simp [Builder.start, Builder.entries, Region.entries]
  | step pass found added ih =>
    refine (pass.handles added).closings_nodup ih ?_
    intro entry member closed
    obtain ⟨earlier, known, -, span, -⟩ := pass.exists_closing member closed
    have apart := pass.tag_after found known
    rw [span] at apart
    omega

/-- What has ended stays as it is when the text is read on. -/
theorem mem_of_addTags (pass : Pass rawTags text tags builder cursor) {last : Builder}
    (read : addTags rawTags builder cursor = .ok last) {entry : Entry}
    (member : entry ∈ builder.entries) (ended : entry.ending ≠ .unclosed) :
    entry ∈ last.entries := by
  apply pass.keeps (entry ∈ ·.entries) ?_ read member
  intro earlier before cursor tag grown reached added known
  exact (reached.handles added).mem_of_mem known ended

end Region.Pass

/-- How a closing tag is written. -/
theorem closingTag?_written {start : Nat} {text : List Char} {tag : Tag} {next : Cursor}
    (found : closingTag? start text = some (tag, next)) :
    ∃ blanks, (∀ c ∈ blanks, isAsciiBlank c = true) ∧
      text = tag.name.toList ++ (blanks ++ '>' :: next.rest) ∧
      tag.span.stop = start + width ('<' :: '/' :: (tag.name.toList ++ (blanks ++ ['>']))) := by
  unfold closingTag? at found
  dsimp only at found
  split at found
  next rest ends =>
    cases found
    have less : '<'.utf8Size = 1 := rfl
    have slash : '/'.utf8Size = 1 := rfl
    have greater : '>'.utf8Size = 1 := rfl
    have name := List.takeWhile_append_dropWhile (p := isNameChar) (l := text)
    have blanks := List.takeWhile_append_dropWhile (p := isAsciiBlank)
      (l := text.dropWhile isNameChar)
    refine ⟨(text.dropWhile isNameChar).takeWhile isAsciiBlank, ?_, ?_, ?_⟩
    · intro c member
      exact List.mem_takeWhile_imp member
    · rw [String.toList_ofList, ← ends, blanks, name]
    · rw [String.toList_ofList]
      simp only [width_cons, width_append, width_nil, less, slash, greater]
      omega
  next => cases found

/-- The whole of a tag stands between the places before and after it. -/
theorem Tag.Site.exists_written {tag : Tag} {cursor next : Cursor} (site : tag.Site cursor next) :
    ∃ before written, cursor.rest = before ++ (written ++ next.rest) ∧
      tag.span.start = cursor.offset + width before ∧
      tag.span.stop = tag.span.start + width written := by
  have less : '<'.utf8Size = 1 := rfl
  have greater : '>'.utf8Size = 1 := rfl
  have attributeStart := site.attributeStart_eq
  have attributeStop := site.attributeStop_eq
  have stop := site.stop_eq
  refine ⟨site.skipped, '<' :: (site.lead ++ (tag.attributeText ++ (site.tail ++ ['>']))), ?_,
    site.start_eq, ?_⟩
  · rw [site.text]
    simp
  · simp only [width_cons, width_append, width_nil, less, greater]
    omega

/-- The opening tag of an element, its content and its closing tag make up the element's text, and
the closing tag is `</`, the element's name, blanks and `>`. -/
def Region.MadeOfParts (text : List Char) (region : Region) (closing : Span) : Prop :=
  ∃ opening content name blanks,
    region.tagSpan.slice? text = some opening ∧
    region.content? text = some content ∧
    closing.slice? text = some ('<' :: '/' :: (name ++ (blanks ++ ['>']))) ∧
    region.span.slice? text =
      some (opening ++ (content ++ '<' :: '/' :: (name ++ (blanks ++ ['>'])))) ∧
    sameName region.name (String.ofList name) = true ∧
    ∀ c ∈ blanks, isAsciiBlank c = true

namespace Region

variable {rawTags : List String} {text : List Char} {document : Region}

/-- The nodes below a document are the descendants of its children. -/
theorem map_region_tail (document : Region) :
    document.placed.tail.map (·.region) = document.children.flatMap descendants := by
  obtain ⟨opening, ending, children⟩ := document
  rw [placed_node, List.tail_cons, map_region_forest, children_node]

/-- The opening tag of an element stands in the text. -/
theorem tag_standsAt {region : Region}
    (member : region ∈ (tree rawTags text).children.flatMap descendants) :
    ∃ before opening after, text = before ++ (opening ++ after) ∧
      region.tagSpan.start = width before ∧
      region.tagSpan.stop = region.tagSpan.start + width opening := by
  obtain ⟨builder, tag, read, is⟩ := exists_tag_of_mem member
  obtain ⟨next, ⟨site⟩⟩ := site_of_mem_tags read
  obtain ⟨before, opening, whole, start, stop⟩ := site.exists_written
  have tag_eq : region.tagSpan = tag.span := by
    rw [tagSpan, is]
    rfl
  refine ⟨before, opening, next.rest, whole, ?_, ?_⟩
  · rw [tag_eq, start]
    exact Nat.zero_add _
  · rw [tag_eq, stop]

/-- A closed element has its content between its tags. -/
theorem LaidOut.tag_le_closing {length : Nat} (laidOut : document.LaidOut length) {place : Placed}
    (member : place ∈ document.placed) {closing : Span}
    (closed : place.region.ending = .closedBy closing) :
    place.region.tagSpan.stop ≤ closing.start := by
  obtain ⟨limit, ⟨spot⟩⟩ := laidOut.spot member
  have content : place.region.contentSpan? = some ⟨place.region.tagSpan.stop, closing.start⟩ := by
    obtain ⟨⟨opening, ending, children⟩, parent?, depth⟩ := place
    cases closed
    rfl
  obtain ⟨same, -⟩ := spot.content _ content
  have stop : closing.start = spot.stop := congrArg Span.stop same
  rw [stop]
  exact spot.laid.start_le_stop

/-- Two tags and what stands between them are the parts of an element. -/
theorem slices_of_parts {region : Region} {closing : Span}
    (closed : region.ending = .closedBy closing)
    {before opening content written after : List Char}
    (whole : text = before ++ (opening ++ (content ++ (written ++ after))))
    (start : region.tagSpan.start = width before)
    (stop : region.tagSpan.stop = region.tagSpan.start + width opening)
    (closing_start : closing.start = region.tagSpan.stop + width content)
    (closing_stop : closing.stop = closing.start + width written) :
    region.tagSpan.slice? text = some opening ∧ region.content? text = some content ∧
      closing.slice? text = some written ∧
      region.span.slice? text = some (opening ++ (content ++ written)) := by
  obtain ⟨head, ending, children⟩ := region
  cases closed
  rw [tagSpan_node] at start stop closing_start
  refine ⟨?_, ?_, ?_, ?_⟩
  · exact Span.slice?_of_parts before _ whole start stop
  · refine Span.slice?_of_parts (before ++ opening) (written ++ after) ?_ ?_ closing_start
    · rw [whole, List.append_assoc]
    · rw [width_append, ← start]
      exact stop
  · refine Span.slice?_of_parts (before ++ (opening ++ content)) after ?_ ?_ closing_stop
    · rw [whole]
      simp
    · rw [width_append, width_append, ← start]
      omega
  · refine Span.slice?_of_parts before after ?_ start ?_
    · rw [whole]
      simp
    · rw [span_closedBy]
      simp only [width_append]
      omega

/-- An element that was closed while the text was read is made of its two tags and its content. -/
theorem madeOfParts_of_closing {place : Placed} (member : place ∈ (tree rawTags text).placed.tail)
    {closing : Tag} (closed : place.region.ending = .closedBy closing.span)
    (read : closing ∈ tags rawTags (.atStart text)) (closes : closing.kind = .closing)
    (named : sameName place.region.name closing.name = true) :
    place.region.MadeOfParts text closing.span := by
  have listed : place.region ∈ (tree rawTags text).children.flatMap descendants := by
    rw [← map_region_tail]
    exact List.mem_map_of_mem member
  have order := (tree_laid rawTags text).tag_le_closing (List.mem_of_mem_tail member) closed
  obtain ⟨before, opening, after, whole, start, stop⟩ := tag_standsAt listed
  obtain ⟨front, inside, next, split, place_eq, found⟩ := closingTag?_of_mem_tags read closes
  obtain ⟨blanks, blank, written, ends⟩ := closingTag?_written found
  have front_eq : closing.span.start = width front := by
    rw [place_eq]
    exact Nat.zero_add _
  -- The closing tag stands behind the opening tag, so the content is what lies between them.
  have cut : front ++ '<' :: '/' :: inside = (before ++ opening) ++ after := by
    rw [← split, List.append_assoc]
    exact whole
  obtain ⟨content, between, behind⟩ := exists_of_width_le cut (by rw [width_append]; omega)
  rw [between, width_append, width_append] at front_eq
  have parts : text = before ++ (opening ++ (content ++
      ('<' :: '/' :: (closing.name.toList ++ (blanks ++ ['>'])) ++ next.rest))) := by
    rw [whole, behind, written]
    simp
  obtain ⟨first, second, third, all⟩ :=
    slices_of_parts closed parts start stop (by omega) ends
  refine ⟨opening, content, closing.name.toList, blanks, first, second, third, all, ?_, blank⟩
  rwa [String.ofList_toList]

end Region

/-- How the nodes of a tree come from the tags that were read up to the end of the text. -/
structure Region.TagsCorrespond (rawTags : List String) (text : List Char) (document : Region)
    (tags : List Tag) (last : Builder) : Prop where
  /-- The number of a node is its place in document order, and the first one is the document. -/
  numbered : document.placed.map (·.region.id) = List.range document.placed.length
  /-- The elements are the tags that open one, in their order. -/
  elements : document.placed.tail.map (fun place =>
      (place.region.name, place.region.tagSpan, place.region.isSelfClosing)) =
    (tags.filter (·.kind ≠ .closing)).map fun tag =>
      (tag.name, tag.span, decide (tag.kind = .selfClosing))
  /-- On the way, every tag adds an element, closes one that is open or does nothing. -/
  handled : ∀ earlier before scanner, Run rawTags text earlier before scanner →
    ∀ tag next after, scanner.nextTag = .ok (some tag, next) → before.addTag tag = .ok after →
      Handles tag before.entries before.stack after.entries after.stack
  /-- The document is never open for a closing tag, and it ends where the text does. -/
  root : (∀ earlier before scanner, Run rawTags text earlier before scanner →
      ∀ opening ∈ before.stack, opening.id ≠ document.id) ∧
    document.ending = .closedBy ⟨width text, width text⟩
  /-- An element that has ended on the way stays so. -/
  kept : document.placed.tail.map (·.region.entry) = last.entries ∧
    ∀ earlier before scanner, Run rawTags text earlier before scanner →
      ∀ entry ∈ before.entries, entry.ending ≠ .unclosed → entry ∈ last.entries
  /-- Every closed element has a closing tag for itself. -/
  closings : (last.entries.filterMap Entry.closing?).Nodup ∧
    ∀ span ∈ last.entries.filterMap Entry.closing?,
      ∃ tag ∈ tags, tag.kind = .closing ∧ tag.span = span
  /-- A closed element is made of its opening tag, its content and its closing tag. -/
  parts : ∀ place ∈ document.placed.tail, ∀ closing, place.region.ending = .closedBy closing →
    place.region.MadeOfParts text closing

namespace Region

variable {rawTags : List String} {text : List Char} {document : Region} {tags : List Tag}
  {last : Builder} {stop : Cursor}

/-- What is known of the nodes below a document is known of its children. -/
theorem map_entry_tail (document : Region) :
    document.placed.tail.map (·.region.entry) = entries document.children := by
  rw [← map_entry_flatMap, ← map_region_tail, List.map_map]
  rfl

/-- A pass to the end of a text tells where each node of its tree comes from. -/
theorem Pass.tagsCorrespond (fits : width text ≤ Offset.limit)
    (pass : Pass rawTags text tags last stop) (none : stop.nextTag? = none)
    (read : addTags rawTags .start (.atStart text) = .ok last)
    (finished : tree rawTags text = last.finish (width text)) :
    TagsCorrespond rawTags text (tree rawTags text) tags last := by
  have tags_eq : Region.tags rawTags (.atStart text) = tags := by
    rw [pass.tags_eq, tags_of_none none, List.append_nil]
  have laidOut := tree_laid rawTags text
  have entries_eq : (tree rawTags text).placed.tail.map (·.region.entry) = last.entries := by
    rw [map_entry_tail, finished, last.entries_children_finish]
  refine ⟨laidOut.numbered, ?_, ?_, ⟨?_, ?_⟩, ⟨entries_eq, ?_⟩, ⟨pass.closings_nodup, ?_⟩, ?_⟩
  · rw [← pass.map_entries, ← entries_eq, List.map_map]
    rfl
  · intro earlier before scanner run tag next after found added
    obtain ⟨cursor, rfl, reached⟩ := run.exists_pass fits
    exact reached.handles added
  · intro earlier before scanner run opening member
    obtain ⟨cursor, rfl, reached⟩ := run.exists_pass fits
    rw [laidOut.id_eq_zero]
    exact Nat.ne_of_gt (reached.nests.stack_positive opening member)
  · rw [finished]
    rfl
  · intro earlier before scanner run entry member ended
    obtain ⟨cursor, rfl, reached⟩ := run.exists_pass fits
    exact reached.mem_of_addTags (reached.addTags_eq ▸ read) member ended
  · intro span member
    obtain ⟨entry, known, is⟩ := List.mem_filterMap.1 member
    obtain ⟨tag, found, kind, span_eq, -⟩ :=
      pass.exists_closing known (Entry.closing?_eq_some.1 is)
    exact ⟨tag, found, kind, span_eq⟩
  · intro place member closing closed
    have known : place.region.entry ∈ last.entries := by
      rw [← entries_eq]
      exact List.mem_map_of_mem (f := (·.region.entry)) member
    obtain ⟨tag, found, kind, rfl, named⟩ := pass.exists_closing known closed
    exact madeOfParts_of_closing member closed (tags_eq ▸ found) kind named

/-- A text that ends below the limit of offsets can be read, and the nodes of its tree correspond to
the tags that are read on the way to its end. -/
theorem parse_tagsCorrespond (rawTags : List String) {text : List Char}
    (fits : width text ≤ Offset.limit) :
    ∃ document tags last stop after, parse rawTags text = .ok document ∧
      Run rawTags text tags last stop ∧ stop.nextTag = .ok (none, after) ∧
      TagsCorrespond rawTags text document tags last := by
  obtain ⟨tags, last, stop, pass, none, read, finished⟩ := exists_pass rawTags fits
  exact ⟨_, tags, last, ⟨text, stop⟩, _, parse_eq_ok rawTags fits, pass.run fits,
    Scanner.nextTag_of_none none, pass.tagsCorrespond fits none read finished⟩

/-- So it is for elements that are closed across others, a closing tag of no element and a script.
-/
theorem parse_tagsCorrespond_crossed :
    let text := "<a><b></A></i><c/><script></b></script>".toList
    width text ≤ Offset.limit ∧ ∃ document tags last stop after,
      parse ["script"] text = .ok document ∧ Run ["script"] text tags last stop ∧
      stop.nextTag = .ok (none, after) ∧ TagsCorrespond ["script"] text document tags last := by
  intro text
  have fits : width text ≤ Offset.limit := by decide
  exact ⟨fits, parse_tagsCorrespond ["script"] fits⟩

/-- In a text that is too long an element need not be made of its parts: the loop of `loopText` is
closed by a tag in front of its content. -/
theorem parse_tagsCorrespond_tooLong :
    ∃ document, parse defaultRawTags loopText = .ok document ∧
      ∀ tags last, ¬ TagsCorrespond defaultRawTags loopText document tags last := by
  let document := (loopTags.foldl Builder.grow .start).finish 20
  refine ⟨document, parse_loopText, fun tags last corresponds => ?_⟩
  let place := document.placed.tail.get ⟨1, by decide +kernel⟩
  have closed : place.region.ending = .closedBy ⟨16, 20⟩ := by decide +kernel
  have reversed : place.region.contentSpan? = some ⟨37, 16⟩ := by decide +kernel
  obtain ⟨-, content, -, -, -, slice, -⟩ :=
    corresponds.parts place (List.get_mem _ _) _ closed
  rw [Region.content?, reversed] at slice
  cases slice

end Region

end SfcIndex.Markup
