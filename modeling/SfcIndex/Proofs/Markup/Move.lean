import SfcIndex.Proofs.Markup.Openings
import SfcIndex.Proofs.Text.Slice

/-! # Moved text

A text is read alike wherever it stands: behind other text its tags, its attributes and its regions
are the same but for their offsets. When everything in front of it is closed, its elements become
the next top-level regions, with numbers that go on from those before (`Builder.foldl_grow_behind`).
-/

namespace SfcIndex

open Text

/-- The same text as many bytes later. -/
def Text.Cursor.move (bytes : Nat) (cursor : Cursor) : Cursor :=
  ⟨cursor.offset + bytes, cursor.rest⟩

namespace Markup

def Tag.move (bytes : Nat) (tag : Tag) : Tag :=
  { tag with span := tag.span.move bytes, attributeSpan := tag.attributeSpan.move bytes }

def Attribute.move (bytes : Nat) (found : Attribute) : Attribute where
  key := found.key
  keySpan := found.keySpan.move bytes
  value := found.value.map fun value => { value with span := value.span.move bytes }

/-- The opening as many bytes and elements later. -/
def Opening.move (bytes ids : Nat) (opening : Opening) : Opening where
  id := opening.id + ids
  name := opening.name
  attributes := opening.attributes.map (·.move bytes)
  span := opening.span.move bytes

def Ending.move (bytes : Nat) : Ending → Ending
  | .selfClosing => .selfClosing
  | .unclosed => .unclosed
  | .closedBy tag => .closedBy (tag.move bytes)

/-- The region as many bytes and elements later. -/
def Region.move (bytes ids : Nat) : Region → Region
  | .node opening ending children =>
    .node (opening.move bytes ids) (ending.move bytes) (children.map (Region.move bytes ids))

def OpenElement.move (bytes ids : Nat) (element : OpenElement) : OpenElement where
  opening := element.opening.move bytes ids
  finished := element.finished.map (·.move bytes ids)

variable (bytes : Nat)

theorem pastComment_move (offset : Nat) (text : List Char) :
    pastComment (offset + bytes) text = (pastComment offset text).move bytes := by
  fun_induction pastComment offset text with
  | case1 offset => rfl
  | case2 offset rest =>
    rw [pastComment, Nat.add_right_comm]
    rfl
  | case3 offset c rest other ih => rw [pastComment.eq_3 _ _ _ other, Nat.add_right_comm, ih]

theorem closingTag?_move (offset : Nat) (text : List Char) :
    closingTag? (offset + bytes) text =
      (closingTag? offset text).map fun found => (found.1.move bytes, found.2.move bytes) := by
  unfold closingTag?
  dsimp only
  split
  next rest ends =>
    simp only [Option.map_some, Tag.move, Cursor.move, Span.move, Span.emptyAt,
      Nat.add_right_comm _ bytes]
  next => rfl

theorem openingTag?_move (offset : Nat) (text : List Char) :
    openingTag? (offset + bytes) text =
      (openingTag? offset text).map fun found => (found.1.move bytes, found.2.move bytes) := by
  unfold openingTag?
  dsimp only
  split
  next => rfl
  next =>
    split
    next => rfl
    next inside rest close =>
      simp only [Option.map_some, Tag.move, Cursor.move, Span.move, Nat.add_right_comm _ bytes]

end Markup

namespace Text.Cursor

open Markup

variable (bytes : Nat)

/-- Moving a text moves the next tag of it. -/
theorem nextTag?_move (cursor : Cursor) :
    (cursor.move bytes).nextTag? =
      cursor.nextTag?.map fun found => (found.1.move bytes, found.2.move bytes) := by
  fun_induction nextTag? cursor with
  | case1 offset => rw [move, nextTag?]; rfl
  | case2 offset rest ih =>
    rw [move, nextTag?, Nat.add_right_comm, pastComment_move, ih]
  | case3 offset rest found closed =>
    rw [move, nextTag?, closingTag?_move, closed]
    rfl
  | case4 offset rest closed ih =>
    rw [move, nextTag?, closingTag?_move, closed, ← ih, move, Nat.add_right_comm]
    rfl
  | case5 offset rest comment closing found opened =>
    rw [move, nextTag?_angle comment closing, openingTag?_move, opened]
    rfl
  | case6 offset rest comment closing opened ih =>
    rw [move, nextTag?_angle comment closing, openingTag?_move, opened, ← ih, move,
      Nat.add_right_comm]
    rfl
  | case7 offset c rest _ _ other ih =>
    rw [move, nextTag?_of_ne other, ← ih, move, Nat.add_right_comm]

theorem skipRaw_move (name : List Char) (cursor : Cursor) :
    (cursor.move bytes).skipRaw name = (cursor.skipRaw name).move bytes := by
  obtain ⟨offset, rest⟩ := cursor
  change skipRaw.go name (offset + bytes) rest = (skipRaw.go name offset rest).move bytes
  induction rest generalizing offset with
  | nil => rfl
  | cons c rest ih =>
    rw [skipRaw.go, skipRaw.go]
    split
    · rfl
    · rw [Nat.add_right_comm, ih]

end Text.Cursor

namespace Markup.Region

open Text

/-- The scan goes on further back in the same way. -/
theorem resume_move (bytes : Nat) (rawTags : List String) (tag : Tag) (next : Cursor) :
    resume rawTags (tag.move bytes) (next.move bytes) = (resume rawTags tag next).move bytes := by
  have same : (tag.kind = .opening && rawTags.any (sameName · tag.name)) =
      ((tag.move bytes).kind = .opening && rawTags.any (sameName · (tag.move bytes).name)) := rfl
  unfold resume
  rw [← same]
  split
  · exact Cursor.skipRaw_move bytes _ _
  · rfl

/-- Moving a text moves its tags. -/
theorem tags_move (bytes : Nat) (rawTags : List String) (cursor : Cursor) :
    tags rawTags (cursor.move bytes) = (tags rawTags cursor).map (·.move bytes) := by
  fun_induction tags rawTags cursor with
  | case1 cursor none =>
    have found := cursor.nextTag?_move bytes
    rw [none] at found
    rw [tags_of_none found]
    rfl
  | case2 cursor tag next read ih =>
    have found := cursor.nextTag?_move bytes
    rw [read] at found
    rw [tags_of_some found, resume_move, ih]
    rfl

end Markup.Region

namespace Markup

theorem Attribute.spelled?_move (bytes : Nat) (token : List Char) (offset : Nat) :
    spelled? token (offset + bytes) = (spelled? token offset).map (·.move bytes) := by
  unfold spelled?
  dsimp only
  split
  next => rfl
  next =>
    split
    next =>
      simp only [Option.map_some, move, Span.move, Option.map_none, Nat.add_right_comm _ bytes]
    next c raw equals =>
      simp only [Option.map_some, move, Span.move, Nat.add_right_comm _ bytes]

/-- The attributes of a text further back are the same ones, moved. -/
theorem Attribute.listed_move (bytes base : Nat) (text : List Char) :
    listed (base + bytes) text = (listed base text).map (·.move bytes) := by
  unfold listed
  rw [List.map_filterMap]
  congr 1
  funext ⟨start, token⟩
  dsimp only
  rw [Nat.add_right_comm, spelled?_move]

namespace Region

variable (bytes ids : Nat)

theorem span_move (region : Region) : (region.move bytes ids).span = region.span.move bytes := by
  obtain ⟨opening, ending, children⟩ := region
  cases ending <;> (rw [move]; rfl)

theorem opening_move (region : Region) :
    (region.move bytes ids).opening = region.opening.move bytes ids := by
  obtain ⟨opening, ending, children⟩ := region
  rw [move]
  rfl

theorem attributes_move (region : Region) :
    (region.move bytes ids).attributes = region.attributes.map (·.move bytes) := by
  rw [attributes, opening_move]
  rfl

theorem attribute?_move (region : Region) (key : String) :
    (region.move bytes ids).attribute? key = (region.attribute? key).map (·.move bytes) := by
  rw [attribute?, attribute?, findAttribute?, findAttribute?, attributes_move, ← List.map_reverse,
    List.find?_map]
  rfl

theorem flatMap_descendants_move (regions : List Region) :
    (regions.map (·.move bytes ids)).flatMap descendants =
      (regions.flatMap descendants).map (·.move bytes ids) := by
  fun_induction openings regions with
  | case1 => rfl
  | case2 opening ending children more inner outer =>
    rw [List.map_cons, List.flatMap_cons, List.flatMap_cons, outer, move, descendants_node, inner,
      descendants_node, List.map_append, List.map_cons, move]

theorem descendants_move (region : Region) :
    (region.move bytes ids).descendants = region.descendants.map (·.move bytes ids) := by
  have moved := flatMap_descendants_move bytes ids [region]
  simpa using moved

end Region

namespace Builder

variable (bytes ids : Nat) (earlier : List Region)

/-- The tree under construction behind other top-level regions, as many bytes and elements later. -/
def behind (builder : Builder) : Builder where
  opened := builder.opened.map (·.move bytes ids)
  finished := builder.finished.map (·.move bytes ids) ++ earlier
  nextId := builder.nextId + ids

theorem append_behind (builder : Builder) (region : Region) :
    (builder.behind bytes ids earlier).append (region.move bytes ids) =
      (builder.append region).behind bytes ids earlier := by
  obtain ⟨opened, finished, nextId⟩ := builder
  cases opened <;> rfl

theorem closeInnermost_behind (builder : Builder) (ending : Ending) :
    (builder.behind bytes ids earlier).closeInnermost (ending.move bytes) =
      (builder.closeInnermost ending).behind bytes ids earlier := by
  obtain ⟨opened, finished, nextId⟩ := builder
  cases opened with
  | nil => rfl
  | cons inner outer =>
    have close : (inner.move bytes ids).close (ending.move bytes) =
        (inner.close ending).move bytes ids := by
      simp [OpenElement.close, OpenElement.move, Region.move]
    have appended := append_behind bytes ids earlier ⟨outer, finished, nextId⟩ (inner.close ending)
    rw [← close] at appended
    exact appended

theorem abandon_behind (builder : Builder) (count : Nat) :
    (builder.behind bytes ids earlier).abandon count =
      (builder.abandon count).behind bytes ids earlier := by
  induction count generalizing builder with
  | zero => rfl
  | succ count ih =>
    have closed := closeInnermost_behind bytes ids earlier builder .unclosed
    rw [Ending.move] at closed
    rw [abandon, abandon, closed, ih]

/-- A closing tag does behind earlier regions what it does on its own. -/
theorem closeTag_behind (builder : Builder) (tag : Tag) :
    (builder.behind bytes ids earlier).closeTag (tag.move bytes) =
      (builder.closeTag tag).behind bytes ids earlier := by
  have search : ((builder.behind bytes ids earlier).opened.findIdx? fun element =>
      sameName element.opening.name (tag.move bytes).name) =
      builder.opened.findIdx? fun element => sameName element.opening.name tag.name := by
    rw [behind, List.findIdx?_map]
    rfl
  unfold closeTag
  rw [search]
  split
  next => rfl
  next inside found =>
    rw [abandon_behind]
    exact closeInnermost_behind bytes ids earlier (builder.abandon inside) (.closedBy tag.span)

/-- An opening behind earlier regions is the opening on its own, moved. -/
theorem openingOf_behind (builder : Builder) (tag : Tag) :
    (builder.behind bytes ids earlier).openingOf (tag.move bytes) =
      (builder.openingOf tag).move bytes ids := by
  have attributes := Attribute.listed_move bytes tag.attributeSpan.start tag.attributeText
  simp only [openingOf, behind, Opening.move, Tag.move, Span.move, attributes]

/-- Each tag does behind other regions what it does from the start. -/
theorem grow_behind (builder : Builder) (tag : Tag) :
    (builder.behind bytes ids earlier).grow (tag.move bytes) =
      (builder.grow tag).behind bytes ids earlier := by
  have opening := openingOf_behind bytes ids earlier builder tag
  have same : (tag.move bytes).kind = tag.kind := rfl
  unfold grow
  rw [same]
  split
  next => exact closeTag_behind bytes ids earlier builder tag
  next =>
    have numbered := append_behind bytes ids earlier { builder with nextId := builder.nextId + 1 }
      (.node (builder.openingOf tag) .selfClosing [])
    rw [Region.move, List.map_nil, Ending.move, ← opening] at numbered
    rw [← numbered]
    simp only [behind, Nat.add_right_comm _ ids]
  next =>
    rw [opening]
    simp only [behind, List.map_cons, OpenElement.move, List.map_nil, Nat.add_right_comm _ ids]

/-- Reading a moved text behind other regions is reading it from the start. -/
theorem foldl_grow_behind (builder : Builder) (tags : List Tag) :
    (tags.map (·.move bytes)).foldl grow (builder.behind bytes ids earlier) =
      (tags.foldl grow builder).behind bytes ids earlier := by
  induction tags generalizing builder with
  | nil => rfl
  | cons tag more ih => rw [List.map_cons, List.foldl_cons, List.foldl_cons, grow_behind, ih]

end Builder

end Markup

end SfcIndex
