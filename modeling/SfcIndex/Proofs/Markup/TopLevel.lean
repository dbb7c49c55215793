import Mathlib.Data.List.Induction
import SfcIndex.Proofs.Markup.Cut

/-! # The tags of top-level regions

While a text is read, its top level changes in three ways only: an element opens while none is open,
an element closes itself while none is open, or the outermost open element is closed
(`Builder.topStep`). A closed region at the top level therefore has two tags, one that opened it
while nothing was open and one after which nothing is open again (`Builder.exists_topTags`).
-/

namespace SfcIndex.Markup.Builder

open Text

/-- The opening of the outermost open element. -/
def outermost? (builder : Builder) : Option Opening := builder.opened.getLast?.map (·.opening)

/-- What one tag can do to the top level. -/
inductive TopStep (builder : Builder) (tag : Tag) (grown : Builder) : Prop
  | inside (same : grown.outermost? = builder.outermost?)
      (finished : grown.finished = builder.finished)
  | opens (none : builder.opened = []) (kind : tag.kind = .opening)
      (new : grown.outermost? = some (builder.openingOf tag))
      (finished : grown.finished = builder.finished)
  | single (none : grown.opened = [])
      (finished : grown.finished =
        .node (builder.openingOf tag) .selfClosing [] :: builder.finished)
  | closes {region : Region} (kind : tag.kind = .closing)
      (outer : builder.outermost? = some region.opening)
      (ending : region.ending = .closedBy tag.span) (none : grown.opened = [])
      (finished : grown.finished = region :: builder.finished)

theorem outermost?_of_nil {builder : Builder} (none : builder.opened = []) :
    builder.outermost? = Option.none := by
  rw [outermost?, none]
  rfl

section Inside

variable {builder : Builder} {region : Region}

/-- A region inside an opened element does not change the top. -/
theorem append_inside (builder : Builder) (region : Region) (some : builder.opened ≠ []) :
    (builder.append region).outermost? = builder.outermost? ∧
      (builder.append region).finished = builder.finished := by
  obtain ⟨opened, finished, nextId⟩ := builder
  rcases opened with _ | ⟨inner, _ | ⟨next, outer⟩⟩
  · exact absurd rfl some
  · exact ⟨rfl, rfl⟩
  · exact ⟨rfl, rfl⟩

/-- Closing an element inside another one does not change the top. -/
theorem closeInnermost_inside (builder : Builder) (ending : Ending)
    (several : 1 < builder.opened.length) :
    (builder.closeInnermost ending).outermost? = builder.outermost? ∧
      (builder.closeInnermost ending).finished = builder.finished := by
  obtain ⟨opened, finished, nextId⟩ := builder
  rcases opened with _ | ⟨inner, _ | ⟨next, outer⟩⟩
  · simp at several
  · simp at several
  · exact append_inside ⟨next :: outer, finished, nextId⟩ (inner.close ending) (by simp)

/-- Leaving elements inside another one unclosed does not change the top. -/
theorem abandon_inside {count : Nat} (fewer : count < builder.opened.length) :
    (builder.abandon count).outermost? = builder.outermost? ∧
      (builder.abandon count).finished = builder.finished := by
  induction count generalizing builder with
  | zero => exact ⟨rfl, rfl⟩
  | succ count ih =>
    obtain ⟨outer, finished⟩ := builder.closeInnermost_inside .unclosed (by omega)
    have left := builder.length_opened_closeInnermost .unclosed
    have fewer' : count < (builder.closeInnermost .unclosed).opened.length := by omega
    obtain ⟨outer', finished'⟩ := ih fewer'
    exact ⟨outer'.trans outer, finished'.trans finished⟩

/-- Closing the only open element ends a region at the top level. -/
theorem closeInnermost_last (builder : Builder) (ending : Ending)
    (only : builder.opened.length = 1) :
    ∃ region : Region, builder.outermost? = some region.opening ∧ region.ending = ending ∧
      (builder.closeInnermost ending).opened = [] ∧
      (builder.closeInnermost ending).finished = region :: builder.finished := by
  obtain ⟨opened, finished, nextId⟩ := builder
  obtain ⟨inner, rfl⟩ := List.length_eq_one_iff.1 only
  exact ⟨inner.close ending, rfl, rfl, rfl, rfl⟩

end Inside

/-- What a closing tag does to the top. -/
theorem topStep_closeTag (builder : Builder) {tag : Tag} (closes : tag.kind = .closing) :
    TopStep builder tag (builder.closeTag tag) := by
  rw [closeTag]
  split
  next => exact .inside rfl rfl
  next count found =>
    obtain ⟨fewer, -⟩ := List.findIdx?_eq_some_iff_getElem.1 found
    obtain ⟨outer, finished⟩ := abandon_inside fewer
    have left := builder.length_opened_abandon count
    by_cases last : (builder.abandon count).opened.length = 1
    · obtain ⟨region, opening, ending, none, added⟩ :=
        (builder.abandon count).closeInnermost_last (.closedBy tag.span) last
      exact .closes closes (outer.symm.trans opening) ending none (by rw [added, finished])
    · obtain ⟨outer', finished'⟩ :=
        (builder.abandon count).closeInnermost_inside (.closedBy tag.span) (by omega)
      exact .inside (outer'.trans outer) (finished'.trans finished)

/-- What any tag does to the top. -/
theorem topStep (builder : Builder) (tag : Tag) : TopStep builder tag (builder.grow tag) := by
  unfold grow
  cases kind : tag.kind with
  | closing => exact builder.topStep_closeTag kind
  | selfClosing =>
    dsimp only
    by_cases none : builder.opened = []
    · rw [append, none]
      exact .single rfl rfl
    · obtain ⟨outer, finished⟩ := append_inside { builder with nextId := builder.nextId + 1 }
        (.node (builder.openingOf tag) .selfClosing []) none
      exact .inside outer finished
  | opening =>
    by_cases none : builder.opened = []
    · refine .opens none kind ?_ rfl
      rw [outermost?, none]
      rfl
    · refine .inside ?_ rfl
      rw [outermost?, List.getLast?_cons_of_ne_nil none]
      rfl

/-- The end of the text adds no closed region. -/
theorem mem_finished_of_mem_abandon {builder : Builder} {region : Region} {count : Nat}
    (member : region ∈ (builder.abandon count).finished) (closed : region.ending ≠ .unclosed) :
    region ∈ builder.finished := by
  induction count generalizing builder with
  | zero => exact member
  | succ count ih =>
    have before := ih member
    by_cases last : builder.opened.length = 1
    · obtain ⟨ended, -, ending, -, finished⟩ := builder.closeInnermost_last .unclosed last
      rw [finished] at before
      rcases List.mem_cons.1 before with rfl | known
      · exact absurd ending closed
      · exact known
    · by_cases several : 1 < builder.opened.length
      · rwa [(builder.closeInnermost_inside .unclosed several).2] at before
      · have none : builder.opened = [] := List.length_eq_zero_iff.1 (by omega)
        rwa [closeInnermost, none] at before

/-- After some tags nothing is open, and the next tag opens an element at the top level. -/
structure OpensTop (earlier : List Tag) (tag : Tag) (opening : Opening) : Prop where
  none_before : (earlier.foldl grow start).opened = []
  opens : tag.kind = .opening
  opening_eq : opening = (earlier.foldl grow start).openingOf tag

/-- The tag that opens a region at the top level and the tag that closes it, with the tags before
and between them. -/
structure TopTags (earlier : List Tag) (opening : Tag) (inner : List Tag) (closing : Tag)
    (region : Region) : Prop extends OpensTop earlier opening region.opening where
  closes : closing.kind = .closing
  ending_eq : region.ending = .closedBy closing.span
  none_after : ((earlier ++ opening :: (inner ++ [closing])).foldl grow start).opened = []
  finished_eq : ((earlier ++ opening :: (inner ++ [closing])).foldl grow start).finished =
    region :: (earlier.foldl grow start).finished

/-- The outermost open element was opened by one of the tags, and no region at the top level was
finished since. -/
theorem exists_opensTop {tags : List Tag} {opening : Opening}
    (outer : (tags.foldl grow start).outermost? = some opening) :
    ∃ earlier tag inner, tags = earlier ++ tag :: inner ∧ OpensTop earlier tag opening ∧
      (tags.foldl grow start).finished = (earlier.foldl grow start).finished := by
  induction tags using List.reverseRecOn with
  | nil => cases outer
  | append_singleton tags tag ih =>
    rw [List.foldl_concat] at outer ⊢
    cases topStep (tags.foldl grow start) tag with
    | inside same finished =>
      obtain ⟨earlier, first, inner, tags_eq, opens, finished'⟩ := ih (same.symm.trans outer)
      refine ⟨earlier, first, inner ++ [tag], ?_, opens, finished.trans finished'⟩
      rw [tags_eq, List.append_assoc, List.cons_append]
    | opens none kind new finished =>
      have same := Option.some.inj (outer.symm.trans new)
      exact ⟨tags, tag, [], rfl, ⟨none, kind, same⟩, finished⟩
    | single none =>
      rw [outermost?_of_nil none] at outer
      cases outer
    | closes _ _ _ none =>
      rw [outermost?_of_nil none] at outer
      cases outer

/-- Every closed region at the top level has its two tags. -/
theorem exists_topTags {tags : List Tag} {region : Region} {span : Span}
    (member : region ∈ (tags.foldl grow start).finished) (closed : region.ending = .closedBy span) :
    ∃ earlier opening inner closing later,
      tags = earlier ++ opening :: (inner ++ closing :: later) ∧
        TopTags earlier opening inner closing region := by
  induction tags using List.reverseRecOn with
  | nil => cases member
  | append_singleton tags tag ih =>
    -- A region that was there before has its tags before the last one.
    have known (before : region ∈ (tags.foldl grow start).finished) :
        ∃ earlier opening inner closing later,
          tags ++ [tag] = earlier ++ opening :: (inner ++ closing :: later) ∧
            TopTags earlier opening inner closing region := by
      obtain ⟨earlier, opening, inner, closing, later, tags_eq, top⟩ := ih before
      refine ⟨earlier, opening, inner, closing, later ++ [tag], ?_, top⟩
      rw [tags_eq]
      simp
    rw [List.foldl_concat] at member
    cases topStep (tags.foldl grow start) tag with
    | inside _ finished => exact known (finished ▸ member)
    | opens _ _ _ finished => exact known (finished ▸ member)
    | single _ finished =>
      rw [finished] at member
      rcases List.mem_cons.1 member with rfl | before
      · cases closed
      · exact known before
    | @closes ended kind outer ending none finished =>
      rw [finished] at member
      rcases List.mem_cons.1 member with rfl | before
      · obtain ⟨earlier, opening, inner, tags_eq, opens, since⟩ := exists_opensTop outer
        have whole : tags ++ [tag] = earlier ++ opening :: (inner ++ [tag]) := by
          rw [tags_eq, List.append_assoc, List.cons_append]
        refine ⟨earlier, opening, inner, tag, [], whole, ⟨opens, kind, ending, ?_, ?_⟩⟩
        · rw [← whole, List.foldl_concat, none]
        · rw [← whole, List.foldl_concat, finished, since]
      · exact known before

end SfcIndex.Markup.Builder
