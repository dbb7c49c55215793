import SfcIndex.Proofs.Markup.Forest
import SfcIndex.Proofs.Markup.LongText
import SfcIndex.Proofs.Markup.Scan
import SfcIndex.Proofs.Text.Slice

/-! # Written documents are read as they are meant

Reading a written document adds exactly the regions of its elements (`Item.regions`) to the
innermost open element, whatever is open and whatever comes after the document. At the top level
this gives the whole tree, and the spans of its nodes cover the parts of the text that were written
for them.
-/

namespace SfcIndex.Markup

open Text

namespace Head

/-- The opening of an element at an offset that starts with the given tag. -/
def openingOf (head : Head) (id offset : Nat) (tag : List Char) : Opening where
  id := id
  name := String.ofList head.name
  attributes := Attribute.allOfWritten (offset + 1 + width head.name) head.attributes
  span := ⟨offset, offset + width tag⟩

/-- The region of an element at an offset with the given content. -/
def region (head : Head) (id offset : Nat) (content : List Char) (children : List Region) :
    Region :=
  let close := offset + width head.openTag + width content
  .node (head.openingOf id offset head.openTag)
    (.closedBy ⟨close, close + width head.closeTag⟩) children

end Head

namespace Item

variable {rawTags : List String}

/-- The regions of the elements of a document that starts at an offset, numbered from `id` on. -/
def regions (offset id : Nat) : List (Item rawTags) → List Region
  | [] => []
  | .text chunk _ :: rest => regions (offset + width chunk) id rest
  | .comment body _ :: rest => regions (offset + width (commentText body)) id rest
  | .single head :: rest =>
    .node (head.openingOf id offset head.singleTag) .selfClosing [] ::
      regions (offset + width head.singleTag) (id + 1) rest
  | .element head _ children :: rest =>
    head.region id offset (render children)
        (regions (offset + width head.openTag) (id + 1) children) ::
      regions (offset + width (head.enclose (render children))) (id + (1 + count children)) rest
  | .raw head _ content _ :: rest =>
    head.region id offset content [] ::
      regions (offset + width (head.enclose content)) (id + 1) rest

end Item

namespace Builder

/-- Regions become the last children of the innermost open element. -/
def adopt (builder : Builder) (regions : List Region) (nextId : Nat) : Builder :=
  match builder.opened with
  | [] => ⟨[], regions.reverse ++ builder.finished, nextId⟩
  | inner :: outer =>
    ⟨{ inner with finished := regions.reverse ++ inner.finished } :: outer, builder.finished,
      nextId⟩

@[simp] theorem nextId_adopt (builder : Builder) (regions : List Region) (nextId : Nat) :
    (builder.adopt regions nextId).nextId = nextId := by
  unfold adopt
  split <;> rfl

@[simp] theorem adopt_nil (builder : Builder) : builder.adopt [] builder.nextId = builder := by
  obtain ⟨opened, finished, nextId⟩ := builder
  cases opened <;> rfl

@[simp] theorem adopt_adopt (builder : Builder) (first second : List Region) (middle nextId : Nat) :
    (builder.adopt first middle).adopt second nextId = builder.adopt (first ++ second) nextId := by
  obtain ⟨opened, finished, start⟩ := builder
  cases opened <;> simp [adopt]

/-- The opening tag of a head opens what the head says. -/
theorem openingOf_opening (builder : Builder) (head : Head) (offset : Nat) :
    builder.openingOf (head.opening offset) =
      head.openingOf builder.nextId offset head.openTag := by
  have blank : ∀ c ∈ ([] : List Char), isAsciiBlank c = true := by simp
  have listed := Attribute.listed_attributes head.attributes (offset + 1 + width head.name) blank
  rw [List.append_nil] at listed
  simp only [openingOf, Head.opening, Head.openingOf, Head.attributeText, listed]

/-- The tag of a head on its own opens what the head says. -/
theorem openingOf_single (builder : Builder) (head : Head) (offset : Nat) :
    builder.openingOf (head.single offset) =
      head.openingOf builder.nextId offset head.singleTag := by
  have blank : ∀ c ∈ [' '], isAsciiBlank c = true := by
    intro c member
    rw [List.mem_singleton.1 member]
    rfl
  have listed := Attribute.listed_attributes head.attributes (offset + 1 + width head.name) blank
  simp only [openingOf, Head.single, Head.openingOf, Head.attributeText, listed]

/-- A tag on its own adds one region. -/
theorem grow_single (builder : Builder) (head : Head) (offset : Nat) :
    builder.grow (head.single offset) =
      builder.adopt [.node (head.openingOf builder.nextId offset head.singleTag) .selfClosing []]
        (builder.nextId + 1) := by
  rw [← openingOf_single]
  obtain ⟨opened, finished, nextId⟩ := builder
  cases opened <;> rfl

/-- An element takes the regions that are read between its tags. -/
theorem grow_element (builder : Builder) (head : Head) (offset nextId : Nat) (content : List Char)
    (children : List Region) :
    ((builder.grow (head.opening offset)).adopt children nextId).grow
        (head.closing (offset + width head.openTag + width content)) =
      builder.adopt [head.region builder.nextId offset content children] nextId := by
  have own : sameName (String.ofList head.name) (String.ofList head.name) = true := by
    simp [sameName]
  rw [Head.region, ← openingOf_opening]
  obtain ⟨opened, finished, start⟩ := builder
  cases opened <;>
    simp [grow, adopt, closeTag, Head.opening, Head.closing, openingOf, List.findIdx?_cons, own,
      abandon, closeInnermost, append, OpenElement.close]

end Builder

namespace Region

variable {rawTags : List String}

/-- The tags from two places are the same when the next tag is. -/
theorem tags_congr {cursor other : Cursor} (same : cursor.nextTag? = other.nextTag?) :
    tags rawTags cursor = tags rawTags other := by
  cases found : other.nextTag? with
  | none => rw [tags_of_none found, tags_of_none (same.trans found)]
  | some read => rw [tags_of_some found, tags_of_some (same.trans found)]

/-- Behind the opening tag of markup the scan goes on at once. -/
theorem resume_opening {head : Head} (markup : head.isRaw rawTags = false) (offset : Nat)
    (next : Cursor) : resume rawTags (head.opening offset) next = next := by
  unfold Head.isRaw at markup
  rw [resume, Head.opening, markup]
  rfl

/-- Behind the opening tag of raw text the scan goes on at its closing tag. -/
theorem resume_raw {head : Head} (rawText : head.isRaw rawTags = true) {content : List Char}
    (ends : EndsRaw head content) (start offset : Nat) (rest : List Char) :
    resume rawTags (head.opening start) ⟨offset, content ++ (head.closeTag ++ rest)⟩ =
      ⟨offset + width content, head.closeTag ++ rest⟩ := by
  unfold Head.isRaw at rawText
  rw [resume, Head.opening, rawText, if_pos (by rfl), String.toList_ofList,
    Cursor.skipRaw_content ends]

/-- Reading a text from an offset on adds regions to what is open, as many as told and numbered from
the next number on, and then goes on after the text. -/
def Adds (rawTags : List String) (offset : Nat) (text : List Char) (regions : Nat → List Region)
    (count : Nat) : Prop :=
  ∀ (builder : Builder) (rest : List Char),
    (tags rawTags ⟨offset, text ++ rest⟩).foldl Builder.grow builder =
      (tags rawTags ⟨offset + width text, rest⟩).foldl Builder.grow
        (builder.adopt (regions builder.nextId) (builder.nextId + count))

namespace Adds

variable {offset count more : Nat} {text later content : List Char}
  {regions others : Nat → List Region}

/-- Text that the search for tags passes over adds nothing. -/
theorem skip (skips : ∀ rest, Cursor.nextTag? ⟨offset, text ++ rest⟩ =
    Cursor.nextTag? ⟨offset + width text, rest⟩) : Adds rawTags offset text (fun _ => []) 0 := by
  intro builder rest
  rw [tags_congr (skips rest), Nat.add_zero, Builder.adopt_nil]

/-- What two texts add is added in a row. -/
theorem append (first : Adds rawTags offset text regions count)
    (second : Adds rawTags (offset + width text) later others more) :
    Adds rawTags offset (text ++ later) (fun id => regions id ++ others (id + count))
      (count + more) := by
  intro builder rest
  rw [List.append_assoc, first, second, Builder.adopt_adopt, Builder.nextId_adopt, width_append,
    Nat.add_assoc, Nat.add_assoc]

/-- A tag on its own adds its region. -/
theorem single (head : Head) (offset : Nat) :
    Adds rawTags offset head.singleTag
      (fun id => [.node (head.openingOf id offset head.singleTag) .selfClosing []]) 1 := by
  intro builder rest
  rw [tags_of_some (Cursor.nextTag?_singleTag head offset rest), List.foldl_cons,
    Builder.grow_single]
  rfl

/-- An element adds one region around what is added between its tags. -/
theorem enclosed (head : Head) (regions : Nat → List Region) (count : Nat)
    (inside : ∀ (builder : Builder) (rest : List Char),
      (tags rawTags (resume rawTags (head.opening offset)
        ⟨offset + width head.openTag, content ++ (head.closeTag ++ rest)⟩)).foldl
          Builder.grow builder =
        (tags rawTags ⟨offset + width head.openTag + width content, head.closeTag ++ rest⟩).foldl
          Builder.grow (builder.adopt (regions builder.nextId) (builder.nextId + count))) :
    Adds rawTags offset (head.enclose content)
      (fun id => [head.region id offset content (regions (id + 1))]) (1 + count) := by
  intro builder rest
  have opens := Cursor.nextTag?_openTag head offset (content ++ (head.closeTag ++ rest))
  have closes := Cursor.nextTag?_closeTag head (offset + width head.openTag + width content) rest
  have resumes : ∀ start next, resume rawTags (head.closing start) next = next := fun _ _ => rfl
  have nextId : (builder.grow (head.opening offset)).nextId = builder.nextId + 1 := rfl
  rw [Head.enclose, List.append_assoc, List.append_assoc, tags_of_some opens, List.foldl_cons,
    inside, tags_of_some closes, resumes, List.foldl_cons, Builder.grow_element, nextId,
    width_append, width_append]
  simp only [Nat.add_assoc]

/-- An element adds its region around what its content adds. -/
theorem element {head : Head} (markup : head.isRaw rawTags = false)
    (inside : Adds rawTags (offset + width head.openTag) content regions count) :
    Adds rawTags offset (head.enclose content)
      (fun id => [head.region id offset content (regions (id + 1))]) (1 + count) := by
  refine enclosed head regions count fun builder rest => ?_
  rw [resume_opening markup, inside]

/-- An element with raw text adds its region with nothing inside. -/
theorem raw {head : Head} (rawText : head.isRaw rawTags = true) (ends : EndsRaw head content)
    (offset : Nat) :
    Adds rawTags offset (head.enclose content)
      (fun id => [head.region id offset content []]) 1 := by
  refine enclosed head (fun _ => []) 0 fun builder rest => ?_
  rw [resume_raw rawText ends, Nat.add_zero, Builder.adopt_nil]

end Adds

end Region

namespace Item

open Region

variable {rawTags : List String}

/-- Reading a document adds the regions of its elements. -/
theorem adds_render (items : List (Item rawTags)) (offset : Nat) :
    Adds rawTags offset (render items) (fun id => regions offset id items) (count items) := by
  induction items using render.induct generalizing offset with
  | case1 =>
    simp only [render, regions, count]
    exact .skip fun rest => rfl
  | case2 chunk plain items ih =>
    have adds := (Adds.skip (Cursor.nextTag?_text plain offset)).append (ih _)
    simpa only [render, regions, count, Nat.zero_add, Nat.add_zero, List.nil_append] using adds
  | case3 body ends items ih =>
    have adds := (Adds.skip (Cursor.nextTag?_comment ends offset)).append (ih _)
    simpa only [render, regions, count, Nat.zero_add, Nat.add_zero, List.nil_append] using adds
  | case4 head items ih =>
    simp only [render, regions, count]
    exact (Adds.single head offset).append (ih _)
  | case5 head markup children items inner outer =>
    simp only [render, regions, count]
    exact (Adds.element markup (inner _)).append (outer _)
  | case6 head rawText content ends items ih =>
    simp only [render, regions, count]
    exact (Adds.raw rawText ends offset).append (ih _)

/-- The tree of a written document. -/
theorem tree_render (items : List (Item rawTags)) :
    tree rawTags (render items) =
      .node ⟨0, documentName, [], ⟨0, 0⟩⟩
        (.closedBy ⟨width (render items), width (render items)⟩) (regions 0 1 items) := by
  have adds := adds_render items 0 .start []
  have done : ∀ offset, tags rawTags ⟨offset, []⟩ = [] := by
    intro offset
    exact tags_of_none (by rw [Cursor.nextTag?])
  rw [List.append_nil, done] at adds
  rw [tree, Cursor.atStart, adds]
  simp [Builder.start, Builder.adopt, Builder.finish, Builder.abandon]

/-- A written attribute is read with its meaning. -/
theorem view_ofWritten (written : WrittenAttribute) (before after : List Char) :
    (Attribute.ofWritten (width before) written).view (before ++ (written.render ++ after)) =
      written.meaning := by
  have blank : ' '.utf8Size = 1 := rfl
  have key : Span.slice? ⟨width before + 1, width before + 1 + width written.key⟩
      (before ++ (written.render ++ after)) = some written.key := by
    refine Span.slice?_of_parts (before ++ [' '])
      (written.value.elim [] (fun text => '=' :: '"' :: (text ++ ['"'])) ++ after) ?_ ?_ rfl
    · simp [WrittenAttribute.render, WrittenAttribute.token]
    · simp [width_append, blank]
  unfold Attribute.view Attribute.ofWritten WrittenAttribute.meaning
  cases given : written.value with
  | none => simp [key]
  | some text =>
    have value : Span.slice? ⟨width before + 1 + width written.key + 2,
        width before + 1 + width written.key + 2 + width text⟩
        (before ++ (written.render ++ after)) = some text := by
      refine Span.slice?_of_parts (before ++ ' ' :: (written.key ++ ['=', '"'])) ('"' :: after)
        ?_ ?_ rfl
      · simp [WrittenAttribute.render, WrittenAttribute.token, given]
      · have quote : width ['=', '"'] = 2 := rfl
        simp only [width_append, width_cons, blank, quote]
        omega
    simp [key, value]

/-- Written attributes are read with their meanings. -/
theorem view_attributes (attributes : List WrittenAttribute) (before after : List Char) :
    (Attribute.allOfWritten (width before) attributes).map
        (·.view (before ++ (attributes.flatMap WrittenAttribute.render ++ after))) =
      attributes.map WrittenAttribute.meaning := by
  induction attributes generalizing before with
  | nil => rfl
  | cons written rest ih =>
    have first := view_ofWritten written before (rest.flatMap WrittenAttribute.render ++ after)
    have later := ih (before ++ written.render)
    simp only [width_append, List.append_assoc] at later
    simp only [Attribute.allOfWritten, List.map_cons, List.flatMap_cons, List.append_assoc, first,
      later]

/-- The attributes of an element whose tag starts at an offset. -/
theorem view_openingOf (head : Head) (before after : List Char) :
    (Attribute.allOfWritten (width before + 1 + width head.name) head.attributes).map
        (·.view (before ++ ('<' :: (head.name ++ (head.attributeText ++ after))))) =
      head.attributes.map WrittenAttribute.meaning := by
  have views := view_attributes head.attributes (before ++ '<' :: head.name) after
  have size : width (before ++ '<' :: head.name) = width before + 1 + width head.name := by
    rw [width_append, width_cons, ← Nat.add_assoc]
    rfl
  rw [size] at views
  simpa [Head.attributeText] using views

/-- An element on its own is seen as it was written. -/
theorem view_single (head : Head) (before after : List Char) (parent depth id : Nat) :
    Placed.view (before ++ (head.singleTag ++ after))
        ⟨.node (head.openingOf id (width before) head.singleTag) .selfClosing [], some parent,
          depth⟩ =
      singleNode (width before) parent id head := by
  have attributes := view_openingOf head before (' ' :: '/' :: '>' :: after)
  have tag : Span.slice? ⟨width before, width before + width head.singleTag⟩
      (before ++ (head.singleTag ++ after)) = some head.singleTag :=
    Span.slice?_of_parts before after rfl rfl rfl
  have text : head.singleTag ++ after =
      '<' :: (head.name ++ (head.attributeText ++ ' ' :: '/' :: '>' :: after)) := by
    simp [Head.singleTag]
  rw [← text] at attributes
  simp [Placed.view, singleNode, Region.name, Region.attributes, Region.opening, Region.tagText,
    Region.content?, Head.openingOf, attributes, tag]

/-- An element is seen as it was written. -/
theorem view_region (head : Head) (before content after : List Char) (children : List Region)
    (parent depth id : Nat) :
    Placed.view (before ++ (head.enclose content ++ after))
        ⟨head.region id (width before) content children, some parent, depth⟩ =
      enclosingNode (width before) parent id head content := by
  have attributes := view_openingOf head before ('>' :: (content ++ (head.closeTag ++ after)))
  have text : head.enclose content ++ after =
      '<' :: (head.name ++
        (head.attributeText ++ '>' :: (content ++ (head.closeTag ++ after)))) := by
    simp [Head.enclose, Head.openTag]
  have tag : Span.slice? ⟨width before, width before + width head.openTag⟩
      (before ++ (head.enclose content ++ after)) = some head.openTag :=
    Span.slice?_of_parts before (content ++ (head.closeTag ++ after)) (by simp [Head.enclose]) rfl
      rfl
  have inside : Span.slice? ⟨width before + width head.openTag,
      width before + width head.openTag + width content⟩
      (before ++ (head.enclose content ++ after)) = some content :=
    Span.slice?_of_parts (before ++ head.openTag) (head.closeTag ++ after)
      (by simp [Head.enclose]) (width_append _ _).symm rfl
  have size : width before + width (head.enclose content) =
      width before + width head.openTag + width content + width head.closeTag := by
    rw [Head.enclose, width_append, width_append]
    omega
  rw [← text] at attributes
  simp [Placed.view, enclosingNode, Head.region, Region.name, Region.attributes, Region.opening,
    Region.tagText, Region.content?, Head.openingOf, attributes, tag, inside, size]

/-- An element comes before what is below it, one level deeper. -/
theorem forest_region (parent? : Option Nat) (depth : Nat) (head : Head) (id offset : Nat)
    (content : List Char) (children more : List Region) :
    forest parent? depth (head.region id offset content children :: more) =
      ⟨head.region id offset content children, parent?, depth⟩ ::
        (forest (some id) (depth + 1) children ++ forest parent? depth more) :=
  forest_cons _ _ _ _ _ _

/-- The nodes of a written document are those that are meant, wherever the document stands. -/
theorem view_nodes (items : List (Item rawTags)) (before after : List Char)
    (parent depth id : Nat) :
    (forest (some parent) depth (regions (width before) id items)).map
        (·.view (before ++ (render items ++ after))) =
      nodes (width before) parent id items := by
  induction items using render.induct generalizing before after parent depth id with
  | case1 => simp [regions, nodes]
  | case2 chunk plain items ih =>
    have later := ih (before ++ chunk) after parent depth id
    simpa only [regions, nodes, render, width_append, List.append_assoc] using later
  | case3 body ends items ih =>
    have later := ih (before ++ commentText body) after parent depth id
    simpa only [regions, nodes, render, width_append, List.append_assoc] using later
  | case4 head items ih =>
    have first := view_single head before (render items ++ after) parent depth id
    have later := ih (before ++ head.singleTag) after parent depth (id + 1)
    simp only [width_append, List.append_assoc] at later
    simp only [regions, nodes, render, forest_cons, List.map_cons, List.append_assoc, forest_nil,
      List.nil_append, first, later]
  | case5 head markup children items inner outer =>
    have first := view_region head before (render children) (render items ++ after)
      (regions (width before + width head.openTag) (id + 1) children) parent depth id
    have inside := inner (before ++ head.openTag) (head.closeTag ++ (render items ++ after)) id
      (depth + 1) (id + 1)
    have later := outer (before ++ head.enclose (render children)) after parent depth
      (id + (1 + count children))
    have text : before ++ (head.enclose (render children) ++ (render items ++ after)) =
        before ++ head.openTag ++
          (render children ++ (head.closeTag ++ (render items ++ after))) := by
      simp [Head.enclose]
    rw [← text, width_append] at inside
    rw [width_append, List.append_assoc] at later
    simp only [regions, nodes, render, forest_region, List.map_cons, List.map_append,
      List.append_assoc, first, inside, later]
  | case6 head rawText content ends items ih =>
    have first := view_region head before content (render items ++ after) [] parent depth id
    have later := ih (before ++ head.enclose content) after parent depth (id + 1)
    rw [width_append, List.append_assoc] at later
    simp only [regions, nodes, render, forest_region, forest_nil, List.nil_append, List.map_cons,
      List.append_assoc, first, later]

/-- The document is seen around the whole text. -/
theorem view_document (text : List Char) (children : List Region) :
    Placed.view text
        ⟨.node ⟨0, documentName, [], ⟨0, 0⟩⟩ (.closedBy ⟨width text, width text⟩) children, none,
          0⟩ =
      documentNode text := by
  have tag : Span.slice? ⟨0, 0⟩ text = some [] := Span.slice?_of_parts [] text rfl rfl rfl
  have inside : Span.slice? ⟨0, width text⟩ text = some text :=
    Span.slice?_of_parts [] [] (by simp) rfl (Nat.zero_add _).symm
  simp [Placed.view, documentNode, Region.name, Region.attributes, Region.opening, Region.tagText,
    Region.content?, tag, inside]

end Item

namespace Region

/-- A written document that ends below the limit of offsets is read as a tree of exactly the nodes
that are meant: one for the whole text and one for each element, in the order of their opening tags,
with the parent, the name and the attributes that were written, and with spans that cover what was
written. -/
theorem parse_render (rawTags : List String) (items : List (Item rawTags))
    (fits : width (Item.render items) ≤ Offset.limit) :
    ∃ document, parse rawTags (Item.render items) = .ok document ∧
      document.placed.map (·.view (Item.render items)) =
        Item.documentNode (Item.render items) :: Item.nodes 0 0 1 items := by
  refine ⟨_, parse_eq_ok rawTags fits, ?_⟩
  have below := Item.view_nodes items [] [] 0 1 1
  rw [List.append_nil, List.nil_append] at below
  rw [Item.tree_render, placed_node, List.map_cons, Item.view_document]
  exact congrArg _ below

/-- An empty comment ends at once. -/
theorem endsComment_nil : EndsComment [] := fun _ _ _ => Nat.zero_le _

/-- Empty raw text ends at once. -/
theorem endsRaw_nil (head : Head) : EndsRaw head [] := fun _ _ _ _ _ _ _ => Nat.zero_le _

/-- Text, a comment, an element in another one and a script. -/
theorem parse_render_nested :
    let key : WrittenAttribute := ⟨['k'], some ['>', 'é'], by decide,
      List.all_eq_true.1 (by decide), by simp⟩
    let inner : Head := ⟨['b'], [], by decide, List.all_eq_true.1 (by decide)⟩
    let outer : Head := ⟨['A', '-'], [key], by decide, List.all_eq_true.1 (by decide)⟩
    let script : Head := ⟨"Script".toList, [], by decide, List.all_eq_true.1 (by decide)⟩
    let items : List (Item ["script"]) :=
      [.text ['é', '>'] (by decide), .comment [] endsComment_nil,
        .element outer (by decide) [.single inner],
        .raw script (by decide) [] (endsRaw_nil script)]
    width (Item.render items) ≤ Offset.limit ∧
      ∃ document, parse ["script"] (Item.render items) = .ok document ∧
        document.placed.map (·.view (Item.render items)) =
          Item.documentNode (Item.render items) :: Item.nodes 0 0 1 items := by
  intro key inner outer script items
  have fits : width (Item.render items) ≤ Offset.limit := by
    simp only [items, Item.render]
    decide +kernel
  exact ⟨fits, parse_render ["script"] items fits⟩

/-- A document that is too long is not read as it is written: its last element is lost. -/
theorem parse_render_tooLong :
    let key : WrittenAttribute := ⟨['a'], some "<!--".toList, by decide,
      List.all_eq_true.1 (by decide), by decide⟩
    let first : Head := ⟨['p'], [key], by decide, List.all_eq_true.1 (by decide)⟩
    let second : Head := ⟨['e'], [], by decide, List.all_eq_true.1 (by decide)⟩
    let third : Head := ⟨['f'], [], by decide, List.all_eq_true.1 (by decide)⟩
    let items : List (Item []) :=
      [.single first, .text (letters 4294967283) (not_mem_letters (by decide) _), .single second,
        .single third]
    ∃ document, parse [] (Item.render items) = .ok document ∧
      document.placed.tail.map (·.region.name) = ["p", "e"] ∧
      document.placed.map (·.view (Item.render items)) ≠
        Item.documentNode (Item.render items) :: Item.nodes 0 0 1 items := by
  intro key first second third items
  have written : Item.render items = backText := by
    simp only [items, Item.render, List.append_nil]
    rfl
  have size : (Item.nodes 0 0 1 items).length = 3 := by
    simp only [items, Item.nodes, List.length_cons, List.length_nil]
  rw [written]
  refine ⟨_, parse_backText, by decide +kernel, ?_⟩
  intro same
  have sizes := congrArg List.length same
  rw [List.length_map, List.length_cons, size] at sizes
  revert sizes
  decide +kernel

end Region

end SfcIndex.Markup
