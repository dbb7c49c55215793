import SfcIndex.Proofs.Markup.RawText
import SfcIndex.Proofs.Text.Case

/-! # Tags in any case

No part of the scanner tells capitals from small letters: the tags of a text in small letters are
its tags with their names and attribute texts in small letters (`Region.tags_fold`). Of two texts
that differ in the case of letters but not in their attributes, the trees are therefore the same but
for the case of names (`Region.parse_caseless`).
-/

namespace SfcIndex

open Text

/-- The same place in the text with all letters made small. -/
def Text.Cursor.fold (cursor : Cursor) : Cursor := ⟨cursor.offset, asciiFold cursor.rest⟩

namespace Markup

/-- The tag of a text with all letters made small. -/
def Tag.fold (tag : Tag) : Tag :=
  { tag with name := lowerName tag.name, attributeText := asciiFold tag.attributeText }

namespace CloseSearch

theorem endsAt_toLower (state : CloseSearch) (c : Char) :
    state.endsAt c.toLower = state.endsAt c := by
  cases state with
  | outside afterEquals => exact decide_eq_decide.2 (toLower_eq_iff (by decide))
  | quoted quote => rfl

/-- The search for the end of a tag sees no case. -/
theorem step_toLower {state : CloseSearch} (quotes : state.Quotes) (c : Char) :
    state.step c.toLower = state.step c := by
  cases state with
  | outside afterEquals =>
    by_cases double : c = '"'
    · rw [double]
      rfl
    · by_cases single : c = '\''
      · rw [single]
        rfl
      · have equals : c.toLower = '=' ↔ c = '=' := toLower_eq_iff (by decide)
        have double' : ¬ c.toLower = '"' := mt (toLower_eq_iff (by decide)).1 double
        have single' : ¬ c.toLower = '\'' := mt (toLower_eq_iff (by decide)).1 single
        simp only [step, equals, double, double', single, single', isAsciiBlank_toLower]
        rfl
  | quoted quote =>
    have closes : c.toLower = quote ↔ c = quote := by
      rcases quotes with rfl | rfl
      · exact toLower_eq_iff (by decide)
      · exact toLower_eq_iff (by decide)
    simp only [step, closes]

end CloseSearch

/-- A folded text is split at the end of its tag as the text is. -/
theorem splitAtClose?_fold {state : CloseSearch} (quotes : state.Quotes) (text : List Char) :
    splitAtClose? state (asciiFold text) =
      (splitAtClose? state text).map fun found => (asciiFold found.1, asciiFold found.2) := by
  induction text generalizing state with
  | nil => rfl
  | cons c rest ih =>
    rw [asciiFold_cons, splitAtClose?, splitAtClose?, CloseSearch.endsAt_toLower,
      CloseSearch.step_toLower quotes, ih (CloseSearch.quotes_step quotes c)]
    split
    · rfl
    · rw [Option.map_map, Option.map_map]
      rfl

/-- A folded text has the closing tag of the text, folded. -/
theorem closingTag?_fold (start : Nat) (text : List Char) :
    closingTag? start (asciiFold text) =
      (closingTag? start text).map fun found => (found.1.fold, found.2.fold) := by
  unfold closingTag?
  dsimp only
  rw [takeWhile_asciiFold Cursor.isNameChar_toLower, dropWhile_asciiFold Cursor.isNameChar_toLower,
    takeWhile_asciiFold isAsciiBlank_toLower, dropWhile_asciiFold isAsciiBlank_toLower]
  simp only [width_asciiFold]
  cases (text.dropWhile isNameChar).dropWhile isAsciiBlank with
  | nil => rfl
  | cons c rest =>
    by_cases closes : c = '>'
    · rw [closes]
      simp [Tag.fold, Cursor.fold, asciiFold, lowerName]
    · have closes' : c.toLower ≠ '>' := mt (toLower_eq_iff (by decide)).1 closes
      simp [asciiFold_cons, closes, closes']

theorem endsName_fold (text : List Char) : endsName (asciiFold text) = endsName text := by
  cases text with
  | nil => rfl
  | cons c rest =>
    have closes : c.toLower = '>' ↔ c = '>' := toLower_eq_iff (by decide)
    have slash : c.toLower = '/' ↔ c = '/' := toLower_eq_iff (by decide)
    simp only [asciiFold_cons, endsName, isAsciiBlank_toLower, closes, slash]

theorem trimBlankEnd_fold (text : List Char) :
    trimBlankEnd (asciiFold text) = asciiFold (trimBlankEnd text) := by
  have reversed : (asciiFold text).reverse = asciiFold text.reverse := List.map_reverse.symm
  rw [trimBlankEnd, reversed, dropWhile_asciiFold isAsciiBlank_toLower]
  exact List.map_reverse.symm

theorem getLast?_fold (text : List Char) :
    (asciiFold text).getLast? = some '/' ↔ text.getLast? = some '/' := by
  rw [asciiFold, List.getLast?_map, Option.map_eq_some_iff]
  constructor
  · rintro ⟨c, last, lower⟩
    rw [last, (toLower_eq_iff (by decide)).1 lower]
  · intro last
    exact ⟨'/', last, rfl⟩

/-- A folded text has the opening tag of the text, folded. -/
theorem openingTag?_fold (start : Nat) (text : List Char) :
    openingTag? start (asciiFold text) =
      (openingTag? start text).map fun found => (found.1.fold, found.2.fold) := by
  have name : (asciiFold (text.takeWhile isNameChar)).isEmpty =
      (text.takeWhile isNameChar).isEmpty := List.isEmpty_map
  unfold openingTag?
  dsimp only
  rw [takeWhile_asciiFold Cursor.isNameChar_toLower, dropWhile_asciiFold Cursor.isNameChar_toLower,
    name, endsName_fold, splitAtClose?_fold (show (CloseSearch.outside false).Quotes from trivial)]
  split
  · rfl
  · cases splitAtClose? (.outside false) (text.dropWhile isNameChar) with
    | none => rfl
    | some found =>
      obtain ⟨inside, rest⟩ := found
      have attributes : (if (trimBlankEnd inside).getLast? = some '/'
            then (asciiFold (trimBlankEnd inside)).dropLast else asciiFold (trimBlankEnd inside)) =
          asciiFold (if (trimBlankEnd inside).getLast? = some '/'
            then (trimBlankEnd inside).dropLast else trimBlankEnd inside) := by
        split
        · exact List.map_dropLast.symm
        · rfl
      simp only [Option.map_some, trimBlankEnd_fold, getLast?_fold, attributes, width_asciiFold,
        Tag.fold, Cursor.fold, lowerName_ofList]

theorem pastComment_fold (offset : Nat) (text : List Char) :
    pastComment offset (asciiFold text) = (pastComment offset text).fold := by
  fun_induction pastComment offset text with
  | case1 offset => rfl
  | case2 offset rest => rfl
  | case3 offset c rest other ih =>
    rw [asciiFold_cons, pastComment.eq_3, utf8Size_toLower, ih]
    intro lowered dash ends
    obtain ⟨more, rfl, behind⟩ := (asciiFold_eq_cons_iff (by decide)).1 ends
    obtain ⟨last, rfl, -⟩ := (asciiFold_eq_cons_iff (by decide)).1 behind
    exact other last ((toLower_eq_iff (by decide)).1 dash) rfl

end Markup

namespace Text.Cursor

open Markup

/-- At `<`, where neither a comment nor a closing tag starts, the folded text is read as the text.
-/
theorem nextTag?_angle_fold {offset : Nat} {text : List Char}
    (comment : ∀ rest, text ≠ '!' :: '-' :: '-' :: rest) (closing : ∀ rest, text ≠ '/' :: rest) :
    nextTag? ⟨offset, '<' :: asciiFold text⟩ =
      match (openingTag? offset text).map fun found => (found.1.fold, found.2.fold) with
      | some found => some found
      | none => nextTag? ⟨offset + 1, asciiFold text⟩ := by
  have comment' : ∀ lowered, asciiFold text ≠ '!' :: '-' :: '-' :: lowered := by
    intro lowered folded
    obtain ⟨rest, rfl, first⟩ := (asciiFold_eq_cons_iff (by decide)).1 folded
    obtain ⟨rest, rfl, second⟩ := (asciiFold_eq_cons_iff (by decide)).1 first
    obtain ⟨rest, rfl, -⟩ := (asciiFold_eq_cons_iff (by decide)).1 second
    exact comment rest rfl
  have closing' : ∀ lowered, asciiFold text ≠ '/' :: lowered := by
    intro lowered folded
    obtain ⟨rest, rfl, -⟩ := (asciiFold_eq_cons_iff (by decide)).1 folded
    exact closing rest rfl
  rw [← openingTag?_fold]
  exact nextTag?_angle comment' closing'

/-- The next tag of a text in small letters is the next tag of the text. -/
theorem nextTag?_fold (cursor : Cursor) :
    cursor.fold.nextTag? = cursor.nextTag?.map fun found => (found.1.fold, found.2.fold) := by
  fun_induction nextTag? cursor with
  | case1 offset =>
    change nextTag? ⟨offset, []⟩ = none
    rw [nextTag?]
  | case2 offset rest ih =>
    change nextTag? ⟨offset, '<' :: '!' :: '-' :: '-' :: asciiFold rest⟩ = _
    rw [nextTag?, pastComment_fold, ih]
  | case3 offset rest found closed =>
    change nextTag? ⟨offset, '<' :: '/' :: asciiFold rest⟩ = _
    rw [nextTag?, closingTag?_fold, closed]
    rfl
  | case4 offset rest closed ih =>
    change nextTag? ⟨offset, '<' :: '/' :: asciiFold rest⟩ = _
    rw [nextTag?, closingTag?_fold, closed]
    exact ih
  | case5 offset rest comment closing found opened =>
    change nextTag? ⟨offset, '<' :: asciiFold rest⟩ = _
    rw [nextTag?_angle_fold comment closing, opened]
    rfl
  | case6 offset rest comment closing opened ih =>
    change nextTag? ⟨offset, '<' :: asciiFold rest⟩ = _
    rw [nextTag?_angle_fold comment closing, opened]
    exact ih
  | case7 offset c rest _ _ other ih =>
    have other' : c.toLower ≠ '<' := mt (toLower_eq_iff (by decide)).1 other
    change nextTag? ⟨offset, c.toLower :: asciiFold rest⟩ = _
    rw [nextTag?_of_ne other', utf8Size_toLower]
    exact ih

theorem atRawEnd_fold (name text : List Char) :
    atRawEnd (asciiFold name) (asciiFold text) = atRawEnd name text := by
  by_cases marked : ∃ rest, text = '<' :: '/' :: rest
  · obtain ⟨rest, rfl⟩ := marked
    have length : (asciiFold name).length = name.length := List.length_map _
    have front : (asciiFold rest).take name.length = asciiFold (rest.take name.length) :=
      List.map_take.symm
    have back : (asciiFold rest).drop name.length = asciiFold (rest.drop name.length) :=
      List.map_drop.symm
    have follows : (asciiFold (rest.drop name.length)).head?.any isNameChar =
        (rest.drop name.length).head?.any isNameChar := by
      rw [asciiFold, List.head?_map, Option.any_map]
      congr 1
      funext c
      exact isNameChar_toLower c
    change atRawEnd (asciiFold name) ('<' :: '/' :: asciiFold rest) = _
    rw [atRawEnd, atRawEnd, length, front, back, follows, asciiFold_asciiFold, asciiFold_asciiFold]
  · have unmarked : ∀ rest, text ≠ '<' :: '/' :: rest := fun rest same => marked ⟨rest, same⟩
    rw [atRawEnd_of_ne unmarked, atRawEnd_of_ne]
    intro lowered folded
    obtain ⟨rest, rfl, first⟩ := (asciiFold_eq_cons_iff (by decide)).1 folded
    obtain ⟨rest, rfl, -⟩ := (asciiFold_eq_cons_iff (by decide)).1 first
    exact unmarked rest rfl

/-- Raw text is skipped in a folded text as in the text. -/
theorem skipRaw_fold (name : List Char) (cursor : Cursor) :
    cursor.fold.skipRaw (asciiFold name) = (cursor.skipRaw name).fold := by
  obtain ⟨offset, rest⟩ := cursor
  change skipRaw.go (asciiFold name) offset (asciiFold rest) = (skipRaw.go name offset rest).fold
  induction rest generalizing offset with
  | nil => rfl
  | cons c rest ih =>
    rw [asciiFold_cons, skipRaw.go, ← asciiFold_cons, atRawEnd_fold, skipRaw.go, utf8Size_toLower]
    split
    · rfl
    · exact ih _

end Text.Cursor

namespace Markup.Region

open Text

/-- The scan goes on in a folded text as in the text. -/
theorem resume_fold (rawTags : List String) (tag : Tag) (next : Cursor) :
    resume rawTags tag.fold next.fold = (resume rawTags tag next).fold := by
  have same : (tag.fold.kind = .opening && rawTags.any (sameName · tag.fold.name)) =
      (tag.kind = .opening && rawTags.any (sameName · tag.name)) := by
    simp only [Tag.fold, sameName_lowerName_right]
    rfl
  unfold resume
  rw [same]
  split
  · rw [← Cursor.skipRaw_fold, ← toList_lowerName]
    rfl
  · rfl

/-- The tags of a text in small letters are the tags of the text. -/
theorem tags_fold (rawTags : List String) (cursor : Cursor) :
    tags rawTags cursor.fold = (tags rawTags cursor).map Tag.fold := by
  fun_induction tags rawTags cursor with
  | case1 cursor none =>
    have found := cursor.nextTag?_fold
    rw [none] at found
    rw [tags_of_none found]
    rfl
  | case2 cursor tag next read ih =>
    have found := cursor.nextTag?_fold
    rw [read] at found
    rw [tags_of_some found, resume_fold, ih]
    rfl

end Markup.Region

namespace Markup

/-- The tag with its name in small letters. -/
def Tag.caseless (tag : Tag) : Tag := { tag with name := lowerName tag.name }

def Opening.caseless (opening : Opening) : Opening :=
  { opening with name := lowerName opening.name }

/-- The region with its name and the names inside it in small letters. -/
def Region.caseless : Region → Region
  | .node opening ending children =>
    .node opening.caseless ending (children.map Region.caseless)

def OpenElement.caseless (element : OpenElement) : OpenElement where
  opening := element.opening.caseless
  finished := element.finished.map Region.caseless

namespace Builder

/-- The tree under construction with all names in small letters. -/
def caseless (builder : Builder) : Builder where
  opened := builder.opened.map OpenElement.caseless
  finished := builder.finished.map Region.caseless
  nextId := builder.nextId

theorem append_caseless (builder : Builder) (region : Region) :
    builder.caseless.append region.caseless = (builder.append region).caseless := by
  obtain ⟨opened, finished, nextId⟩ := builder
  cases opened <;> rfl

theorem closeInnermost_caseless (builder : Builder) (ending : Ending) :
    builder.caseless.closeInnermost ending = (builder.closeInnermost ending).caseless := by
  obtain ⟨opened, finished, nextId⟩ := builder
  cases opened with
  | nil => rfl
  | cons inner outer =>
    have close : inner.caseless.close ending = (inner.close ending).caseless := by
      rw [OpenElement.close, OpenElement.close, Region.caseless, List.map_reverse]
      rfl
    have appended := append_caseless ⟨outer, finished, nextId⟩ (inner.close ending)
    rw [← close] at appended
    exact appended

theorem abandon_caseless (builder : Builder) (count : Nat) :
    builder.caseless.abandon count = (builder.abandon count).caseless := by
  induction count generalizing builder with
  | zero => rfl
  | succ count ih => rw [abandon, abandon, closeInnermost_caseless, ih]

theorem closeTag_caseless (builder : Builder) (tag : Tag) :
    builder.caseless.closeTag tag.caseless = (builder.closeTag tag).caseless := by
  have search : (builder.caseless.opened.findIdx? fun element =>
      sameName element.opening.name tag.caseless.name) =
      builder.opened.findIdx? fun element => sameName element.opening.name tag.name := by
    rw [caseless, List.findIdx?_map]
    congr 1
    funext element
    exact sameName_lowerName element.opening.name tag.name
  unfold closeTag
  rw [search]
  split
  next => rfl
  next inside found =>
    rw [abandon_caseless, closeInnermost_caseless]
    rfl

/-- An opening tag does the same whatever its case. -/
theorem openTag_caseless (builder : Builder) (tag : Tag) :
    builder.caseless.openTag tag.caseless = (builder.openTag tag).map caseless := by
  have attributes : Attribute.parse tag.caseless.attributeSpan.start tag.caseless.attributeText =
      Attribute.parse tag.attributeSpan.start tag.attributeText := rfl
  have same : tag.caseless.kind = tag.kind := rfl
  unfold openTag
  rw [attributes, same]
  cases Attribute.parse tag.attributeSpan.start tag.attributeText with
  | error error => rfl
  | ok attributes =>
    change (if tag.kind = .selfClosing then _ else _) = Except.map caseless (if _ then _ else _)
    split
    · have numbered := append_caseless { builder with nextId := builder.nextId + 1 }
        (.node ⟨builder.nextId, tag.name, attributes, tag.span⟩ .selfClosing [])
      rw [Region.caseless, List.map_nil] at numbered
      exact congrArg Except.ok numbered
    · rfl

/-- Each tag does the same to the tree when all names are in small letters. -/
theorem addTag_caseless (builder : Builder) (tag : Tag) :
    builder.caseless.addTag tag.caseless = (builder.addTag tag).map caseless := by
  have same : tag.caseless.kind = tag.kind := rfl
  unfold addTag
  rw [same]
  split
  · rw [closeTag_caseless]
    rfl
  · exact openTag_caseless builder tag

/-- Tags build the same tree whatever their case. -/
theorem foldlM_addTag_caseless (builder : Builder) (tags : List Tag) :
    (tags.map Tag.caseless).foldlM addTag builder.caseless =
      (tags.foldlM addTag builder).map caseless := by
  induction tags generalizing builder with
  | nil => rfl
  | cons tag more ih =>
    rw [List.map_cons, List.foldlM_cons, List.foldlM_cons, addTag_caseless]
    cases builder.addTag tag with
    | error error => rfl
    | ok grown => exact ih grown

theorem finish_caseless (builder : Builder) (length : Nat) :
    builder.caseless.finish length = (builder.finish length).caseless := by
  have count : builder.caseless.opened.length = builder.opened.length := List.length_map _
  have document : lowerName Region.documentName = Region.documentName := by decide
  unfold finish
  rw [count, abandon_caseless, Region.caseless]
  simp only [Opening.caseless, document, caseless, List.map_reverse]

end Builder

namespace Region

variable {rawTags : List String} {text text' : List Char}

/-- The attributes of a tag stand in the text at their span. -/
theorem slice?_attributeSpan {tag : Tag} (member : tag ∈ tags rawTags (.atStart text)) :
    tag.attributeSpan.slice? text = some tag.attributeText := by
  obtain ⟨next, ⟨site⟩⟩ := site_of_mem_tags member
  obtain ⟨start, place, before, after, whole, rfl⟩ := site.standsAt_attributeText
  apply Span.slice?_of_parts before after whole
  · rw [place]
    exact Nat.zero_add _
  · exact site.attributeStop_eq

/-- Texts that differ only in case and not in their attributes have the same tags but for the case
of names. -/
theorem tags_caseless (same : asciiFold text' = asciiFold text)
    (kept : ∀ tag ∈ tags rawTags (.atStart text),
      tag.attributeSpan.slice? text' = tag.attributeSpan.slice? text) :
    (tags rawTags (.atStart text')).map Tag.caseless =
      (tags rawTags (.atStart text)).map Tag.caseless := by
  -- What a tag is but for the case of its name can be read off the text in small letters, once its
  -- attributes are read again.
  let reread (tag : Tag) : Tag :=
    { tag with attributeText := (tag.attributeSpan.slice? text').getD [] }
  have folded : (tags rawTags (.atStart text')).map Tag.fold =
      (tags rawTags (.atStart text)).map Tag.fold := by
    rw [← tags_fold, ← tags_fold, Cursor.fold, Cursor.fold]
    exact congrArg (fun rest => tags rawTags ⟨0, rest⟩) same
  calc (tags rawTags (.atStart text')).map Tag.caseless
      = ((tags rawTags (.atStart text')).map Tag.fold).map reread := by
        rw [List.map_map]
        apply List.map_congr_left
        intro tag member
        have covers := slice?_attributeSpan member
        simp [Tag.caseless, reread, Tag.fold, covers]
    _ = ((tags rawTags (.atStart text)).map Tag.fold).map reread := by rw [folded]
    _ = (tags rawTags (.atStart text)).map Tag.caseless := by
        rw [List.map_map]
        apply List.map_congr_left
        intro tag member
        have covers := (kept tag member).trans (slice?_attributeSpan member)
        simp [Tag.caseless, reread, Tag.fold, covers]

/-- Texts with the same tags but for the case of names have the same tree but for the case of
names. -/
theorem parse_caseless (fits : width text ≤ Offset.limit)
    (same : (tags rawTags (.atStart text')).map Tag.caseless =
      (tags rawTags (.atStart text)).map Tag.caseless) (level : width text' = width text) :
    (parse rawTags text').map caseless = (parse rawTags text).map caseless := by
  have each (text : List Char) (fits : width text ≤ Offset.limit) :
      (parse rawTags text).map caseless =
        (((tags rawTags (.atStart text)).map Tag.caseless).foldlM Builder.addTag .start).map
          (·.finish (width text)) := by
    have start : Builder.start = Builder.start.caseless := rfl
    rw [parse_eq rawTags fits, addTags, start, Builder.foldlM_addTag_caseless, ← start]
    cases (tags rawTags (.atStart text)).foldlM Builder.addTag .start with
    | error error => rfl
    | ok builder => exact congrArg Except.ok (Builder.finish_caseless builder _).symm
  rw [each text' (level ▸ fits), each text fits, same, level]

section Parts

variable (region : Region)

theorem opening_caseless : region.caseless.opening = region.opening.caseless := by
  obtain ⟨opening, ending, children⟩ := region
  rw [caseless]
  rfl

theorem children_caseless : region.caseless.children = region.children.map caseless := by
  obtain ⟨opening, ending, children⟩ := region
  rw [caseless]
  rfl

theorem attributes_caseless : region.caseless.attributes = region.attributes := by
  rw [attributes, opening_caseless]
  rfl

theorem attribute?_caseless (key : String) :
    region.caseless.attribute? key = region.attribute? key := by
  rw [attribute?, findAttribute?, attributes_caseless]
  rfl

theorem span_caseless : region.caseless.span = region.span := by
  obtain ⟨opening, ending, children⟩ := region
  cases ending <;> (rw [caseless]; rfl)

theorem isTag_caseless (name : String) : region.caseless.isTag name = region.isTag name := by
  rw [isTag, Region.name, opening_caseless]
  exact sameName_lowerName_left region.name name

end Parts

/-- The regions below others are the same whatever their case. -/
theorem flatMap_descendants_caseless (regions : List Region) :
    (regions.map caseless).flatMap descendants =
      (regions.flatMap descendants).map caseless := by
  fun_induction openings regions with
  | case1 => rfl
  | case2 opening ending children more inner outer =>
    rw [List.map_cons, List.flatMap_cons, List.flatMap_cons, outer, caseless, descendants_node,
      inner, descendants_node, List.map_append, List.map_cons, caseless]

theorem descendants_caseless (region : Region) :
    region.caseless.descendants = region.descendants.map caseless := by
  have renamed := flatMap_descendants_caseless [region]
  simpa using renamed

end Region

/-- The start of a tag up to the end of its name. -/
def Tag.headSpan (tag : Tag) : Span := ⟨tag.span.start, tag.attributeSpan.start⟩

/-- The attributes of a tag come behind its name, and both lie in the tag. -/
theorem Tag.Site.parts_le {tag : Tag} {cursor next : Cursor} (site : tag.Site cursor next) :
    tag.span.start ≤ tag.attributeSpan.start ∧
      tag.attributeSpan.start ≤ tag.attributeSpan.stop ∧
      tag.attributeSpan.stop ≤ tag.span.stop := by
  have := site.attributeStart_eq
  have := site.attributeStop_eq
  have := site.stop_eq
  omega

namespace Region

variable {rawTags : List String} {text : List Char} {region : Region}

/-- Two tags are the same, or one stands in front of the other. -/
theorem tags_apart {cursor : Cursor} {first second : Tag} (left : first ∈ tags rawTags cursor)
    (right : second ∈ tags rawTags cursor) :
    first = second ∨ first.span.stop ≤ second.span.start ∨
      second.span.stop ≤ first.span.start := by
  have ordered := (inOrder_tags rawTags cursor).pairwise.2
  obtain ⟨earlier, later, split⟩ := List.append_of_mem left
  rw [split] at right ordered
  obtain ⟨-, behind, across⟩ := List.pairwise_append.1 ordered
  rcases List.mem_append.1 right with before | rest
  · exact .inr (.inr (across second before first List.mem_cons_self))
  · rcases List.mem_cons.1 rest with rfl | after
    · exact .inl rfl
    · exact .inr (.inl ((List.pairwise_cons.1 behind).1 second after))

/-- No name stands in the attributes of a tag. -/
theorem attributeSpan_apart {tag named : Tag} (read : tag ∈ tags rawTags (.atStart text))
    (known : named ∈ tags rawTags (.atStart text)) {offset : Nat}
    (after : tag.attributeSpan.start ≤ offset) (before : offset < tag.attributeSpan.stop) :
    ¬ (named.headSpan.start ≤ offset ∧ offset < named.headSpan.stop) := by
  obtain ⟨next, ⟨site⟩⟩ := site_of_mem_tags read
  obtain ⟨other, ⟨site'⟩⟩ := site_of_mem_tags known
  have parts := site.parts_le
  have parts' := site'.parts_le
  rintro ⟨start, stop⟩
  dsimp only [Tag.headSpan] at start stop
  rcases tags_apart read known with rfl | first | second
  · omega
  · omega
  · omega

/-- The tag that closes a region at the top level is a tag of the text. -/
theorem exists_closing_of_mem {span : Span} (member : region ∈ (tree rawTags text).children)
    (closed : region.ending = .closedBy span) :
    ∃ tag ∈ tags rawTags (.atStart text), tag.span = span := by
  rw [tree, Builder.children_finish, List.mem_reverse] at member
  have ended : region.ending ≠ .unclosed := by
    rw [closed]
    intro same
    cases same
  have known := Builder.mem_finished_of_mem_abandon member ended
  obtain ⟨earlier, opening, inner, closing, later, split, top⟩ :=
    Builder.exists_topTags known closed
  have ending := closed.symm.trans top.ending_eq
  cases ending
  refine ⟨closing, ?_, rfl⟩
  rw [split]
  simp

end Region

end Markup

end SfcIndex
