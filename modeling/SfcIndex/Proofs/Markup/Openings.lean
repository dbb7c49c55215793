import SfcIndex.Proofs.Markup.Forest
import SfcIndex.Proofs.Markup.Run

/-! # Which tag opens an element

Every opening or self-closing tag opens one element, in the order of the tags, and closing tags open
none (`Builder.openings_grow`). What a tree says of an element's name, attributes and tag can so be
read off the tag. Where a text can be read, the values of its attributes end below the limit of
offsets (`Region.value_le_limit`).
-/

namespace SfcIndex.Markup

open Text

namespace Region

/-- The openings of regions and of everything below them, in document order. -/
def openings : List Region → List Opening
  | [] => []
  | .node opening _ children :: more => opening :: (openings children ++ openings more)

theorem openings_append (first second : List Region) :
    openings (first ++ second) = openings first ++ openings second := by
  induction first with
  | nil => simp [openings]
  | cons region more ih =>
    obtain ⟨opening, ending, children⟩ := region
    simp [openings, ih]

/-- The regions of a forest are those at the top and below. -/
theorem map_region_forest (parent? : Option Nat) (depth : Nat) (regions : List Region) :
    (forest parent? depth regions).map (·.region) = regions.flatMap descendants := by
  fun_induction openings regions generalizing parent? depth with
  | case1 => rfl
  | case2 opening ending children more inner outer =>
    rw [forest_cons, List.map_cons, List.map_append, inner, outer, List.flatMap_cons, descendants,
      placed_node, List.map_cons, inner]
    rfl

/-- A region comes before what is below it. -/
theorem descendants_node (opening : Opening) (ending : Ending) (children : List Region) :
    (node opening ending children).descendants =
      node opening ending children :: children.flatMap descendants := by
  rw [descendants, placed_node, List.map_cons, map_region_forest]

/-- The openings of regions are those of everything below them. -/
theorem map_opening_flatMap (regions : List Region) :
    (regions.flatMap descendants).map opening = openings regions := by
  fun_induction openings regions with
  | case1 => rfl
  | case2 opening ending children more inner outer =>
    rw [List.flatMap_cons, descendants_node, List.cons_append, List.map_cons, List.map_append,
      inner, outer]
    rfl

end Region

namespace Builder

/-- The openings of the elements read so far, in document order. -/
def openings (builder : Builder) : List Opening :=
  Region.openings builder.finished.reverse ++
    builder.opened.reverse.flatMap fun element =>
      element.opening :: Region.openings element.finished.reverse

theorem openings_append (builder : Builder) (region : Region) :
    (builder.append region).openings = builder.openings ++ Region.openings [region] := by
  obtain ⟨opened, finished, nextId⟩ := builder
  cases opened with
  | nil => simp [append, openings, Region.openings_append]
  | cons inner outer => simp [append, openings, Region.openings_append]

theorem openings_closeInnermost (builder : Builder) (ending : Ending) :
    (builder.closeInnermost ending).openings = builder.openings := by
  obtain ⟨opened, finished, nextId⟩ := builder
  cases opened with
  | nil => rfl
  | cons inner outer =>
    rw [closeInnermost, openings_append]
    simp [openings, OpenElement.close, Region.openings]

/-- Leaving elements unclosed does not change the openings. -/
theorem openings_abandon (builder : Builder) (count : Nat) :
    (builder.abandon count).openings = builder.openings := by
  induction count generalizing builder with
  | zero => rfl
  | succ count ih => rw [abandon, ih, openings_closeInnermost]

/-- A tag opens one element, or none when it is a closing tag. -/
theorem openings_grow (builder : Builder) (tag : Tag) :
    (builder.grow tag).openings =
      builder.openings ++ if tag.kind = .closing then [] else [builder.openingOf tag] := by
  cases kind : tag.kind with
  | closing =>
    rw [grow, kind, if_pos rfl, List.append_nil]
    dsimp only
    rw [closeTag]
    split
    next => rfl
    next inside found => rw [openings_closeInnermost, openings_abandon]
  | selfClosing =>
    rw [grow, kind, if_neg (by simp)]
    dsimp only
    rw [openings_append]
    simp [openings, Region.openings]
  | opening =>
    rw [grow, kind, if_neg (by simp)]
    simp [openings, Region.openings]

/-- Every opening was there before or comes from a tag. -/
theorem exists_of_mem_openings {builder : Builder} {tags : List Tag} {opening : Opening}
    (member : opening ∈ (tags.foldl grow builder).openings) :
    opening ∈ builder.openings ∨ ∃ earlier, ∃ tag ∈ tags, opening = openingOf earlier tag := by
  induction tags generalizing builder with
  | nil => exact .inl member
  | cons tag more ih =>
    rcases ih member with known | ⟨earlier, other, behind, same⟩
    · rw [openings_grow] at known
      rcases List.mem_append.1 known with before | new
      · exact .inl before
      · refine .inr ⟨builder, tag, List.mem_cons_self, ?_⟩
        split at new
        · cases new
        · exact List.mem_singleton.1 new
    · exact .inr ⟨earlier, other, List.mem_cons_of_mem _ behind, same⟩

/-- The openings of the finished tree are those of its building. -/
theorem openings_children_finish (builder : Builder) (length : Nat) :
    Region.openings (builder.finish length).children = builder.openings := by
  have none := builder.opened_abandon_all
  rw [← openings_abandon builder builder.opened.length, openings, none]
  simp [finish]

end Builder

namespace Region

/-- Every element of a text is opened by one of its tags. -/
theorem exists_tag_of_mem {rawTags : List String} {text : List Char} {region : Region}
    (member : region ∈ (tree rawTags text).children.flatMap descendants) :
    ∃ builder, ∃ tag ∈ tags rawTags (.atStart text),
      region.opening = Builder.openingOf builder tag := by
  have opens : region.opening ∈ openings (tree rawTags text).children := by
    rw [← map_opening_flatMap]
    exact List.mem_map_of_mem member
  rw [tree, Builder.openings_children_finish] at opens
  rcases Builder.exists_of_mem_openings opens with none | found
  · simp [Builder.start, Builder.openings, openings] at none
  · exact found

/-- The values of attributes lie in the text. -/
theorem value_bounds {rawTags : List String} {text : List Char} {region : Region}
    (member : region ∈ (tree rawTags text).children.flatMap descendants) {found : Attribute}
    (carries : found ∈ region.attributes) {value : AttributeValue} (is : found.value = some value) :
    value.span.start + width value.text.toList ≤ width text := by
  obtain ⟨builder, tag, read, opening⟩ := exists_tag_of_mem member
  have inside := (inOrder_tags rawTags (.atStart text)).attributes_le read
  rw [attributes, opening] at carries
  obtain ⟨size, below⟩ := Attribute.value_bounds carries is
  rw [← size]
  refine Nat.le_trans below (Nat.le_trans inside ?_)
  simp [Cursor.atStart]

/-- The contents of regions at the top level lie in the text. -/
theorem content_stop_le {rawTags : List String} {text : List Char} {region : Region}
    (member : region ∈ (tree rawTags text).children) {content : Span}
    (is : region.contentSpan? = some content) : content.stop ≤ width text := by
  obtain ⟨children, next, document, laid⟩ := tree_laid rawTags text
  rw [document, children_node] at member
  exact laid.content_stop_le member is

/-- What the layout says of every element of a text. -/
theorem exists_bounds {rawTags : List String} {text : List Char} {region : Region}
    (member : region ∈ (tree rawTags text).children.flatMap descendants) :
    ∃ next, Laid.Bounds 0 1 (width text) next region := by
  obtain ⟨children, next, document, laid⟩ := tree_laid rawTags text
  rw [document, children_node, ← map_region_forest none 0] at member
  obtain ⟨place, found, rfl⟩ := List.mem_map.1 member
  exact ⟨next, laid.bounds found⟩

/-- Elements lie in the text. -/
theorem span_bounds {rawTags : List String} {text : List Char} {region : Region}
    (member : region ∈ (tree rawTags text).children.flatMap descendants) :
    region.span.start ≤ width text ∧ region.span.stop ≤ width text := by
  obtain ⟨next, bounds⟩ := exists_bounds member
  have start : region.span.start = region.tagSpan.start := rfl
  have := bounds.nonempty
  have := bounds.tag_le_span
  have := bounds.stop_le
  exact ⟨by omega, by omega⟩

/-- What is below a region is below everything that the region is below. -/
theorem mem_descendants_trans {outer inner region : Region} (inside : inner ∈ outer.descendants)
    (member : region ∈ inner.descendants) : region ∈ outer.descendants := by
  have all : ∀ regions : List Region, inner ∈ regions.flatMap descendants →
      region ∈ regions.flatMap descendants := by
    intro regions
    fun_induction openings regions with
    | case1 =>
      intro none
      cases none
    | case2 opening ending children more deeper later =>
      intro known
      rw [List.flatMap_cons, descendants_node, List.cons_append] at known ⊢
      rcases List.mem_cons.1 known with rfl | known
      · rw [descendants_node] at member
        exact List.mem_append_left _ member
      · refine List.mem_cons_of_mem _ (List.mem_append.2 ?_)
        exact (List.mem_append.1 known).imp deeper later
  have known := all [outer] (by rwa [List.flatMap_singleton])
  rwa [List.flatMap_singleton] at known

end Region

/-- The values of the attributes end below the limit of offsets. -/
def Opening.ValuesFit (opening : Opening) : Prop :=
  ∀ found ∈ opening.attributes, ∀ value, found.value = some value →
    value.span.start + width value.text.toList ≤ Offset.limit

/-- The value of an attribute that is read ends at an offset. -/
theorem Attribute.value_le_of_parse {base : Nat} {text : List Char} {attributes : List Attribute}
    (read : parse base text = .ok attributes) {found : Attribute} (member : found ∈ attributes)
    {value : AttributeValue} (is : found.value = some value) :
    value.span.start + width value.text.toList ≤ Offset.limit := by
  rw [(parse_gives base text).eq_of_ok read] at member
  rw [← (value_bounds member is).1]
  obtain ⟨place, known, spells⟩ := List.mem_filterMap.1 member
  have fits := ((parse_gives base text).fits_of_ok read place known).2
  dsimp only at spells
  rw [TokenFits, spells, Option.elim_some, is] at fits
  exact fits.2

namespace Builder

/-- A tag that can be added opens an element whose values end below the limit. -/
theorem valuesFit_of_addTag {builder grown : Builder} {tag : Tag}
    (added : builder.addTag tag = .ok grown)
    (known : ∀ opening ∈ builder.openings, opening.ValuesFit) :
    ∀ opening ∈ grown.openings, opening.ValuesFit := by
  intro opening member
  rw [eq_grow_of_addTag added, openings_grow] at member
  rcases List.mem_append.1 member with before | new
  · exact known opening before
  · split at new
    next => cases new
    next opens =>
      rw [addTag, if_neg opens] at added
      obtain ⟨attributes, read, -⟩ := Offset.exists_of_bind added
      rw [List.mem_singleton.1 new]
      intro found carries value is
      refine Attribute.value_le_of_parse read ?_ is
      rw [(Attribute.parse_gives _ _).eq_of_ok read]
      exact carries

end Builder

namespace Region

variable {rawTags : List String} {text : List Char} {document region : Region}

/-- The elements of a run have values that end below the limit. -/
theorem Run.valuesFit {earlier : List Tag} {builder : Builder} {scanner : Scanner}
    (run : Run rawTags text earlier builder scanner) :
    ∀ opening ∈ builder.openings, opening.ValuesFit := by
  induction run with
  | start => simp [Builder.start, Builder.openings, openings]
  | step _ _ added ih => exact Builder.valuesFit_of_addTag added ih

/-- Only elements carry attributes: one that does is below a region at the top level. -/
theorem mem_of_carries {builder : Builder} {length : Nat}
    (member : region ∈ (builder.finish length).descendants) {found : Attribute}
    (carries : found ∈ region.attributes) :
    region ∈ (builder.finish length).children.flatMap descendants := by
  rw [Builder.finish, descendants_node] at member
  rcases List.mem_cons.1 member with rfl | below
  · cases carries
  · exact below

/-- An element that carries an attribute is opened by a tag of a run. -/
theorem exists_opening_of_carries (parsed : parse rawTags text = .ok document)
    (member : region ∈ document.descendants) {found : Attribute}
    (carries : found ∈ region.attributes) :
    ∃ tags last stop, Run rawTags text tags last stop ∧ region.opening ∈ last.openings := by
  obtain ⟨tags, last, stop, -, run, -, rfl⟩ := exists_run parsed
  have below := List.mem_map_of_mem (f := opening) (mem_of_carries member carries)
  rw [map_opening_flatMap, Builder.openings_children_finish] at below
  exact ⟨tags, last, stop, run, below⟩

/-- In a text that can be read all values end below the limit. -/
theorem value_le_limit (parsed : parse rawTags text = .ok document)
    (member : region ∈ document.descendants) {found : Attribute}
    (carries : found ∈ region.attributes) {value : AttributeValue}
    (is : found.value = some value) :
    value.span.start + width value.text.toList ≤ Offset.limit := by
  obtain ⟨tags, last, stop, run, opens⟩ := exists_opening_of_carries parsed member carries
  exact run.valuesFit _ opens found carries value is

end Region

end SfcIndex.Markup
