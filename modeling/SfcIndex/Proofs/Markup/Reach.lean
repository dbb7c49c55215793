import SfcIndex.Proofs.Markup.Ancestry
import SfcIndex.Proofs.Markup.Openings

/-! # How far elements reach

Opening tags follow one another in document order, and with everything below it a region at the top
level ends before the next one starts. Elements that share text are above one another in the tree
(`Region.LaidOut.related_of_overlap`).
-/

namespace SfcIndex.Markup

open Text

namespace Region

/-- A region comes first, and then what is below its children. -/
theorem descendants_eq (region : Region) :
    region.descendants = region :: region.children.flatMap descendants := by
  obtain ⟨opening, ending, children⟩ := region
  exact descendants_node opening ending children

/-- How a region at the top level and a later one lie: the first has an end, and it, its content and
everything below it end before the second one starts. -/
structure EndsBefore (first second : Region) : Prop where
  ended : first.ending ≠ .unclosed
  content : ∀ content, first.contentSpan? = some content → content.stop ≤ second.tagSpan.start
  below : ∀ element ∈ first.descendants, element.tagSpan.stop ≤ second.tagSpan.start

end Region

/-- Regions in a layout end one before the other. -/
theorem Laid.endsBefore_pairwise {start id stop next : Nat} {regions : List Region}
    (laid : Laid start id regions stop next) : regions.Pairwise Region.EndsBefore := by
  induction laid using Laid.induction_elements with
  | nil => exact .nil
  | @cons start id stop next inner last middle opening ending children more element inside later _
      _ outer =>
    refine List.pairwise_cons.2 ⟨?_, outer⟩
    intro sibling member
    have bounds : Laid.Bounds _ _ _ _ sibling :=
      later.bounds (Region.mem_forest_of_mem member none 0)
    have starts := bounds.start_le
    have inner_le := element.inner_le
    refine ⟨?_, ?_, ?_⟩
    · intro unclosed
      rw [element.unfollowed unclosed] at member
      cases member
    · intro content is
      obtain ⟨rfl, -⟩ := element.content content is
      exact Nat.le_trans inner_le starts
    · intro below member
      rw [Region.descendants_node, ← Region.map_region_forest none 0] at member
      rcases List.mem_cons.1 member with rfl | deeper
      · exact Nat.le_trans element.tag_le_span (Nat.le_trans element.span_le starts)
      · obtain ⟨place, found, rfl⟩ := List.mem_map.1 deeper
        have inBounds := inside.bounds found
        have tag_le := inBounds.tag_le_span
        have stop_le := inBounds.stop_le
        omega

namespace Region

section Tree

variable (rawTags : List String) (text : List Char)

/-- The regions at the top of a text end one before the other. -/
theorem children_endsBefore : (tree rawTags text).children.Pairwise EndsBefore := by
  obtain ⟨children, next, document, laid⟩ := tree_laid rawTags text
  rw [document]
  exact laid.endsBefore_pairwise

/-- The opening tags of elements follow one another in document order. -/
theorem elements_pairwise :
    ((tree rawTags text).children.flatMap descendants).Pairwise fun first second =>
      first.tagSpan.stop ≤ second.tagSpan.start := by
  obtain ⟨children, next, document, laid⟩ := tree_laid rawTags text
  rw [document, children_node, ← map_region_forest none 0, List.pairwise_map]
  exact laid.tags_pairwise none 0

end Tree

section Elements

variable {rawTags : List String} {text : List Char} {region element : Region}

/-- The tag of a region is not empty. -/
theorem tag_nonempty (member : region ∈ (tree rawTags text).children) :
    region.tagSpan.start < region.tagSpan.stop := by
  have itself : region ∈ region.descendants := by
    rw [descendants_eq]
    exact List.mem_cons_self
  obtain ⟨next, bounds⟩ := exists_bounds (List.mem_flatMap.2 ⟨region, member, itself⟩)
  exact bounds.nonempty

/-- Nothing below a region starts in front of its tag. -/
theorem tag_start_le (member : region ∈ (tree rawTags text).children)
    (below : element ∈ region.descendants) : region.tagSpan.start ≤ element.tagSpan.start := by
  have ordered := (List.pairwise_flatMap.1 (elements_pairwise rawTags text)).1 region member
  have nonempty := tag_nonempty member
  rw [descendants_eq] at ordered below
  rcases List.mem_cons.1 below with rfl | deeper
  · exact Nat.le_refl _
  · have := (List.pairwise_cons.1 ordered).1 element deeper
    omega

/-- Every element is one of the nodes. -/
theorem exists_placed
    (member : region ∈ (tree rawTags text).children.flatMap descendants) :
    ∃ place ∈ (tree rawTags text).placed, place.region = region := by
  obtain ⟨children, next, document, laid⟩ := tree_laid rawTags text
  rw [document, children_node, ← map_region_forest (some 0) 1] at member
  obtain ⟨place, found, is⟩ := List.mem_map.1 member
  refine ⟨place, ?_, is⟩
  rw [document, placed_node]
  exact List.mem_cons_of_mem _ found

end Elements

namespace LaidOut

variable {document : Region} {length : Nat} {first second : Placed}

/-- An offset lies inside one opening tag at most. -/
theorem eq_of_tags (laidOut : document.LaidOut length) (left : first ∈ document.placed)
    (right : second ∈ document.placed) {offset : Nat}
    (inside : first.region.tagSpan.start < offset ∧ offset < first.region.tagSpan.stop)
    (inside' : second.region.tagSpan.start < offset ∧ offset < second.region.tagSpan.stop) :
    first = second := by
  obtain ⟨index, low, rfl⟩ := List.getElem_of_mem left
  obtain ⟨index', high, rfl⟩ := List.getElem_of_mem right
  have ordered := List.pairwise_iff_getElem.1 laidOut.tags_ordered
  rcases Nat.lt_trichotomy index index' with before | rfl | after
  · have := ordered index index' low high before
    omega
  · rfl
  · have := ordered index' index high low after
    omega

/-- A later node is below an earlier one or starts where that one has ended. -/
theorem below_or_after (laidOut : document.LaidOut length) (left : first ∈ document.placed)
    (right : second ∈ document.placed) (later : first.region.id < second.region.id) :
    document.ProperAncestor first second ∨
      first.region.span.stop ≤ second.region.tagSpan.start := by
  obtain ⟨limit, ⟨spot⟩⟩ := laidOut.spot left
  have place := right
  rw [spot.nodes_eq] at place
  rcases List.mem_append.1 place with before | others
  · have := spot.before_id second before
    omega
  · rcases List.mem_cons.1 others with rfl | behind
    · exact absurd later (Nat.lt_irrefl _)
    · rcases List.mem_append.1 behind with below | after
      · exact .inl ((laidOut.numbered.properAncestor_iff left).2 below)
      · exact .inr (spot.after_start second after)

/-- Of two nodes that share text, one is above the other. -/
theorem related_of_overlap (laidOut : document.LaidOut length) (left : first ∈ document.placed)
    (right : second ∈ document.placed) {target : Span} (nonempty : target.start < target.stop)
    (within : first.region.span.contains target = true)
    (within' : second.region.span.contains target = true) :
    first = second ∨ document.ProperAncestor first second ∨
      document.ProperAncestor second first := by
  obtain ⟨start_le, le_stop⟩ := Span.contains_iff.1 within
  obtain ⟨start_le', le_stop'⟩ := Span.contains_iff.1 within'
  have starts : ∀ place : Placed, place.region.span.start = place.region.tagSpan.start :=
    fun _ => rfl
  have first_start := starts first
  have second_start := starts second
  rcases Nat.lt_trichotomy first.region.id second.region.id with before | same | after
  · rcases laidOut.below_or_after left right before with above | apart
    · exact .inr (.inl above)
    · omega
  · exact .inl (laidOut.numbered.eq_of_id_eq left right same)
  · rcases laidOut.below_or_after right left after with above | apart
    · exact .inr (.inr above)
    · omega

/-- A closed element covers everything below it. -/
theorem contains_descendant (laidOut : document.LaidOut length) (known : first ∈ document.placed)
    {tag : Span} (closed : first.region.ending = .closedBy tag) {below : Region}
    (member : below ∈ first.region.descendants) :
    first.region.span.contains below.span = true := by
  obtain ⟨content, is⟩ := laidOut.exists_content known (.inr ⟨tag, closed⟩)
  obtain ⟨limit, ⟨spot⟩⟩ := laidOut.spot known
  obtain ⟨-, within⟩ := spot.content content is
  rw [descendants_eq, ← map_region_forest (some first.region.id) (first.depth + 1)] at member
  rcases List.mem_cons.1 member with rfl | deeper
  · exact Span.contains_iff.2 ⟨Nat.le_refl _, Nat.le_refl _⟩
  · obtain ⟨place, found, rfl⟩ := List.mem_map.1 deeper
    have bounds := spot.laid.bounds found
    have after : first.region.tagSpan.stop ≤ place.region.span.start := bounds.start_le
    have forward := laidOut.tag_start_le_stop known
    have stops := bounds.stop_le
    exact Span.contains_iff.2 ⟨Nat.le_trans forward after, Nat.le_trans stops within⟩

end LaidOut

end Region

end SfcIndex.Markup
