import SfcIndex.Proofs.Markup.TopLevel

/-! # Trees of texts that differ inside one region

When the middle part of a text is exactly the content of a region at the top level, the scanner has
stopped where the content starts and stops again where it ends, whatever the content is. The regions
before that region are decided by the text in front of the content, and the regions after it by the
text behind its closing tag (`Region.HoldsMiddle.children_eq`).
-/

namespace SfcIndex.Markup

open Text

/-- A closing tag starts where it is read. -/
theorem closingTag?_start {start : Nat} {text : List Char} {tag : Tag} {next : Cursor}
    (found : closingTag? start text = some (tag, next)) : tag.span.start = start := by
  unfold closingTag? at found
  dsimp only at found
  split at found
  · cases found
    rfl
  · cases found

/-- What is read as an opening tag does not close anything. -/
theorem openingTag?_kind {start : Nat} {text : List Char} {tag : Tag} {next : Cursor}
    (found : openingTag? start text = some (tag, next)) : tag.kind ≠ .closing := by
  unfold openingTag? at found
  dsimp only at found
  split at found
  · cases found
  · split at found
    · cases found
    · cases found
      dsimp only
      split <;> simp

/-- A closing tag is read at its own place, whatever the scanner has passed before. -/
theorem closingTag?_of_nextTag? {cursor next : Cursor} {tag : Tag}
    (found : cursor.nextTag? = some (tag, next)) (closes : tag.kind = .closing) :
    ∃ before text, cursor.rest = before ++ '<' :: '/' :: text ∧
      tag.span.start = cursor.offset + width before ∧
      closingTag? tag.span.start text = some (tag, next) := by
  fun_induction Cursor.nextTag? cursor with
  | case1 => cases found
  | case2 offset rest ih =>
    obtain ⟨before, text, split, start, closed⟩ := ih found
    obtain ⟨skipped, same, place⟩ := pastComment_skips (offset + 4) rest
    refine ⟨'<' :: '!' :: '-' :: '-' :: (skipped ++ before), text, ?_, ?_, closed⟩
    · rw [same, split]
      simp
    · have less : '<'.utf8Size = 1 := rfl
      have bang : '!'.utf8Size = 1 := rfl
      have dash : '-'.utf8Size = 1 := rfl
      rw [start, place]
      simp only [width_cons, width_append, less, bang, dash]
      omega
  | case3 offset rest read closed =>
    have closed' := closed.trans found
    have start := closingTag?_start closed'
    exact ⟨[], rest, rfl, start, by rw [start]; exact closed'⟩
  | case4 offset rest closed ih =>
    obtain ⟨before, text, split, start, closed'⟩ := ih found
    refine ⟨'<' :: before, text, by rw [List.cons_append, ← split], ?_, closed'⟩
    rw [start, width_cons, ← Nat.add_assoc]
    rfl
  | case5 offset rest _ _ read opened => exact absurd closes (openingTag?_kind (opened.trans found))
  | case6 offset rest _ _ opened ih =>
    obtain ⟨before, text, split, start, closed⟩ := ih found
    refine ⟨'<' :: before, text, by rw [List.cons_append, ← split], ?_, closed⟩
    rw [start, width_cons, ← Nat.add_assoc]
    rfl
  | case7 offset c rest _ _ _ ih =>
    obtain ⟨before, text, split, start, closed⟩ := ih found
    refine ⟨c :: before, text, by rw [List.cons_append, ← split], ?_, closed⟩
    rw [start, width_cons, ← Nat.add_assoc]

/-- A closing tag of a text is read behind `</`. -/
theorem closingTag?_of_mem_tags {rawTags : List String} {cursor : Cursor} {tag : Tag}
    (member : tag ∈ Region.tags rawTags cursor) (closes : tag.kind = .closing) :
    ∃ before text next, cursor.rest = before ++ '<' :: '/' :: text ∧
      tag.span.start = cursor.offset + width before ∧
      closingTag? tag.span.start text = some (tag, next) := by
  fun_induction Region.tags rawTags cursor with
  | case1 cursor none => cases member
  | case2 cursor first next found ih =>
    rcases List.mem_cons.1 member with rfl | later
    · obtain ⟨before, text, split, start, closed⟩ := closingTag?_of_nextTag? found closes
      exact ⟨before, text, next, split, start, closed⟩
    · obtain ⟨before, text, after, split, start, closed⟩ := ih later
      obtain ⟨lead, whole, offset⟩ := Region.exists_of_nextTag? found
      obtain ⟨skipped, same, place⟩ := Region.resume_skips rawTags first next
      refine ⟨lead ++ '>' :: (skipped ++ before), text, after, ?_, ?_, closed⟩
      · rw [whole, same, split]
        simp
      · have greater : '>'.utf8Size = 1 := rfl
        simp only [width_append, width_cons, greater]
        omega

/-- The text starts with a closing tag; what is written of it and what comes after it. -/
def StartsClosing (text written after : List Char) : Prop :=
  ∃ inside tag next, text = '<' :: '/' :: inside ∧ closingTag? 0 inside = some (tag, next) ∧
    after = next.rest ∧ text = written ++ after

/-- A closing tag that starts a text can be read there in one way only. -/
theorem StartsClosing.unique {text written written' after after' : List Char}
    (first : StartsClosing text written after) (second : StartsClosing text written' after') :
    written = written' ∧ after = after' := by
  obtain ⟨inside, tag, next, rfl, read, rfl, split⟩ := first
  obtain ⟨inside', tag', next', same, read', rfl, split'⟩ := second
  cases same
  cases read.symm.trans read'
  exact ⟨List.append_cancel_right (split.symm.trans split'), rfl⟩

/-- A tag that is read at a place starts the text there, and it ends where its text does. -/
theorem startsClosing_of_closingTag? {start : Nat} {text : List Char} {tag : Tag} {next : Cursor}
    (found : closingTag? start text = some (tag, next)) :
    ∃ written after, StartsClosing ('<' :: '/' :: text) written after ∧
      tag.span.stop = start + width written := by
  have moved := closingTag?_move start 0 text
  rw [Nat.zero_add, found] at moved
  obtain ⟨⟨tag', next'⟩, read, same⟩ := Option.map_eq_some_iff.1 moved.symm
  cases same
  obtain ⟨written, whole, -⟩ := closingTag?_looksNoFurther 0 text tag' next' read
  obtain ⟨site⟩ := closingTag?_site read
  refine ⟨'<' :: '/' :: written, next'.rest, ⟨text, tag', next', rfl, read, rfl, ?_⟩, ?_⟩
  · rw [whole]
    rfl
  · have size := site.offset_add_width
    have stop := site.next_eq
    dsimp only at size
    rw [whole, width_cons, width_cons, width_append] at size
    change tag'.span.stop + start = _
    rw [width_cons, width_cons]
    omega

/-- A closing tag that starts behind some text starts the rest. -/
theorem startsClosing_of_mem_tags {rawTags : List String} {front rest : List Char} {tag : Tag}
    (member : tag ∈ Region.tags rawTags (.atStart (front ++ rest))) (closes : tag.kind = .closing)
    (starts : tag.span.start = width front) :
    ∃ written after, StartsClosing rest written after ∧
      tag.span.stop = width (front ++ written) := by
  obtain ⟨before, text, next, split, place, closed⟩ := closingTag?_of_mem_tags member closes
  have level : width before = width front := by
    rw [← starts, place]
    exact (Nat.zero_add _).symm
  obtain ⟨-, rfl⟩ := eq_of_width_eq split level
  obtain ⟨written, after, starts', stop⟩ := startsClosing_of_closingTag? closed
  exact ⟨written, after, starts', by rw [stop, starts, width_append]⟩

namespace Builder

/-- An opening tag finishes nothing. -/
theorem finished_grow_opening (builder : Builder) {tag : Tag} (opens : tag.kind = .opening) :
    (builder.grow tag).finished = builder.finished := by
  rw [grow, opens]

/-- What is finished stays finished when a region is added. -/
theorem finished_suffix_append (builder : Builder) (region : Region) :
    builder.finished <:+ (builder.append region).finished := by
  obtain ⟨opened, finished, nextId⟩ := builder
  cases opened with
  | nil => exact List.suffix_cons _ _
  | cons inner outer => exact List.suffix_rfl

/-- What is finished stays finished when elements are left unclosed. -/
theorem finished_suffix_abandon (builder : Builder) (count : Nat) :
    builder.finished <:+ (builder.abandon count).finished := by
  induction count generalizing builder with
  | zero => exact List.suffix_rfl
  | succ count ih =>
    refine List.IsSuffix.trans ?_ (ih (builder.closeInnermost .unclosed))
    obtain ⟨opened, finished, nextId⟩ := builder
    cases opened with
    | nil => exact List.suffix_rfl
    | cons inner outer =>
      exact finished_suffix_append ⟨outer, finished, nextId⟩ (inner.close .unclosed)

/-- While a text is read, everything finished at the top level is closed. -/
theorem Nests.ending_ne_unclosed {builder : Builder} {stop : Nat} (nests : builder.Nests stop)
    {region : Region} (member : region ∈ builder.finished) : region.ending ≠ .unclosed := by
  have settled : ∀ opened stop next, Levels builder.finished opened stop next →
      ∃ stop' next', Settled 0 1 builder.finished.reverse stop' next' := by
    intro opened
    induction opened with
    | nil => exact fun stop next levels => ⟨stop, next, levels⟩
    | cons inner outer ih => exact fun stop next levels => ih _ _ levels.2.2
  obtain ⟨stop', next', whole⟩ := settled _ _ _ nests
  exact whole.ending_ne_unclosed (List.mem_reverse.2 member)

/-- With nothing opened, the regions at the top are the finished ones. -/
theorem children_finish_of_nil {builder : Builder} (none : builder.opened = []) (length : Nat) :
    (builder.finish length).children = builder.finished.reverse := by
  rw [children_finish, none]
  rfl

end Builder

namespace Region

/-- The top-level regions that are finished where a text ends. -/
def finishedIn (rawTags : List String) (front : List Char) : List Region :=
  ((tags rawTags (.atStart front)).foldl Builder.grow .start).finished.reverse

/-- What is finished in front of an edit is at the top of that text. -/
theorem mem_children_of_mem_finishedIn {rawTags : List String} {front : List Char} {region : Region}
    (member : region ∈ finishedIn rawTags front) : region ∈ (tree rawTags front).children := by
  rw [tree, Builder.children_finish]
  apply List.mem_reverse.2
  exact (Builder.finished_suffix_abandon _ _).mem (List.mem_reverse.1 member)

/-- What is finished in front of an edit is closed. -/
theorem ending_ne_unclosed_of_mem_finishedIn {rawTags : List String} {front : List Char}
    {region : Region} (member : region ∈ finishedIn rawTags front) : region.ending ≠ .unclosed :=
  (Builder.nests_start.foldl_grow (inOrder_tags rawTags (.atStart front))).ending_ne_unclosed
    (List.mem_reverse.1 member)

/-- A text of three parts is read as a document in which the middle part is exactly the content of a
region at the top level. -/
structure HoldsMiddle (rawTags : List String) (front middle rest : List Char)
    (document region : Region) : Prop where
  parsed : parse rawTags (front ++ middle ++ rest) = .ok document
  top : region ∈ document.children
  content : region.contentSpan? = some ⟨width front, width front + width middle⟩

namespace HoldsMiddle

variable {rawTags : List String} {front middle rest : List Char} {document region : Region}

/-- The tags of the text divide into those before the region, its own, those inside it and those
behind it. -/
theorem tags_eq (holds : HoldsMiddle rawTags front middle rest document region)
    (fits : width (front ++ middle ++ rest) ≤ Offset.limit) :
    ∃ earlier opening inner closing later,
      tags rawTags (.atStart (front ++ middle ++ rest)) =
        earlier ++ opening :: (inner ++ closing :: later) ∧
      Builder.TopTags earlier opening inner closing region ∧
      opening.span.stop = width front ∧ closing.span.start = width front + width middle := by
  have member := holds.top
  have content := holds.content
  rw [eq_tree_of_parse fits holds.parsed, tree, Builder.children_finish, List.mem_reverse]
    at member
  obtain ⟨own, ending, children⟩ := region
  cases ending with
  | selfClosing => cases content
  | unclosed => cases content
  | closedBy tag =>
    have known := Builder.mem_finished_of_mem_abandon member (by simp)
    obtain ⟨earlier, opening, inner, closing, later, split, top⟩ :=
      Builder.exists_topTags known rfl
    have start : own.span.stop = width front := congrArg Span.start (Option.some.inj content)
    have stop : tag.start = width front + width middle :=
      congrArg Span.stop (Option.some.inj content)
    have opens : own = _ := top.opening_eq
    have closes : Ending.closedBy tag = _ := top.ending_eq
    rw [opens] at start
    cases closes
    exact ⟨earlier, opening, inner, closing, later, split, top, start, stop⟩

/-- Behind the closing tag of the region the text has a clean cut. The regions in front of the cut
are those that are finished in the text in front of the middle part, and the region itself. -/
theorem tagsCut (holds : HoldsMiddle rawTags front middle rest document region)
    (fits : width (front ++ middle ++ rest) ≤ Offset.limit) :
    ∃ written after, StartsClosing rest written after ∧
      TagsCut rawTags (front ++ middle ++ written) after ∧
      (tree rawTags (front ++ middle ++ written)).children =
        finishedIn rawTags front ++ [region] := by
  obtain ⟨earlier, opening, inner, closing, later, read, top, starts, stops⟩ :=
    holds.tags_eq fits
  have inFront : finishedIn rawTags front =
      (earlier.foldl Builder.grow .start).finished.reverse := by
    have whole : tags rawTags ⟨0, front ++ (middle ++ rest)⟩ =
        earlier ++ opening :: (inner ++ closing :: later) := by
      rw [← List.append_assoc]
      exact read
    have front_eq : tags rawTags (.atStart front) = earlier ++ [opening] :=
      (tags_cut whole (by omega)).1
    rw [finishedIn, front_eq, List.foldl_concat, Builder.finished_grow_opening _ top.opens]
  have member : closing ∈ tags rawTags (.atStart (front ++ middle ++ rest)) := by
    rw [read]
    simp
  obtain ⟨written, after, closes, stop⟩ :=
    startsClosing_of_mem_tags member top.closes (by rw [stops, width_append])
  have text_eq : front ++ middle ++ rest = front ++ middle ++ written ++ after := by
    obtain ⟨-, -, -, -, -, -, whole⟩ := closes
    rw [whole, List.append_assoc _ written]
  have split : earlier ++ opening :: (inner ++ closing :: later) =
      (earlier ++ opening :: inner) ++ closing :: later := by simp
  have joined : (earlier ++ opening :: inner) ++ [closing] =
      earlier ++ opening :: (inner ++ [closing]) := by simp
  rw [text_eq, split] at read
  refine ⟨written, after, closes, ?_, ?_⟩
  · refine ⟨_, closing, later, read, stop, ?_⟩
    rw [joined]
    exact top.none_after
  · have whole : tags rawTags ⟨0, front ++ middle ++ written ++ after⟩ = _ := read
    have tags_eq : tags rawTags (.atStart (front ++ middle ++ written)) =
        earlier ++ opening :: (inner ++ [closing]) := (tags_cut whole (by omega)).1.trans joined
    rw [tree, tags_eq, Builder.children_finish_of_nil top.none_after, top.finished_eq, inFront,
      List.reverse_cons]

/-- The top-level regions of the text are those finished in front of the middle part, the region
that holds it, and those of the text behind its closing tag, moved. -/
theorem children_eq (holds : HoldsMiddle rawTags front middle rest document region)
    (fits : width (front ++ middle ++ rest) ≤ Offset.limit) :
    ∃ written after ids, StartsClosing rest written after ∧
      document.children = finishedIn rawTags front ++
        region :: (tree rawTags after).children.map
          (·.move (width (front ++ middle ++ written)) ids) := by
  obtain ⟨written, after, closes, cut, children⟩ := holds.tagsCut fits
  obtain ⟨ids, whole⟩ := cut.children_tree
  refine ⟨written, after, ids, closes, ?_⟩
  obtain ⟨-, -, -, -, -, -, rest_eq⟩ := closes
  rw [eq_tree_of_parse fits holds.parsed, rest_eq, ← List.append_assoc, whole, children,
    List.append_assoc]
  rfl

end HoldsMiddle

end Region

end SfcIndex.Markup
