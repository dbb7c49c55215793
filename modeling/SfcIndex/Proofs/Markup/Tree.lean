import SfcIndex.Proofs.Markup.Attributes
import SfcIndex.Proofs.Markup.Scanner

/-! # The tree of a text

`Region.tree` is the tree that a text describes when offsets may have any size. A text that ends
below the limit of offsets is read as this tree (`Region.parse_eq_ok`).
-/

namespace SfcIndex.Markup

open Text

namespace Builder

/-- The element that an opening tag opens. -/
def openingOf (builder : Builder) (tag : Tag) : Opening :=
  ⟨builder.nextId, tag.name, Attribute.listed tag.attributeSpan.start tag.attributeText, tag.span⟩

/-- The tree after one more tag, with offsets of any size. -/
def grow (builder : Builder) (tag : Tag) : Builder :=
  match tag.kind with
  | .closing => builder.closeTag tag
  | .selfClosing =>
    { builder with nextId := builder.nextId + 1 }.append
      (.node (builder.openingOf tag) .selfClosing [])
  | .opening =>
    { builder with
      opened := ⟨builder.openingOf tag, []⟩ :: builder.opened
      nextId := builder.nextId + 1 }

/-- An opening tag grows the tree when the offsets of its attributes fit. -/
theorem openTag_gives (builder : Builder) (tag : Tag) (opens : tag.kind ≠ .closing) :
    ∃ fits, (tag.attributeSpan.start + width tag.attributeText ≤ Offset.limit → fits) ∧
      Offset.Gives (builder.openTag tag) fits (builder.grow tag) := by
  have attributes := Attribute.parse_gives tag.attributeSpan.start tag.attributeText
  refine ⟨_, fun below => attributes.fits_of_ok (Attribute.parse_eq_ok below), ?_⟩
  unfold openTag grow
  cases kind : tag.kind with
  | closing => exact absurd kind opens
  | selfClosing => exact attributes.map _
  | opening => exact attributes.map _

/-- A tag that can be added grows the tree. -/
theorem eq_grow_of_addTag {builder grown : Builder} {tag : Tag}
    (added : builder.addTag tag = .ok grown) : grown = builder.grow tag := by
  unfold addTag at added
  split at added
  next closes =>
    cases added
    simp [grow, closes]
  next opens =>
    obtain ⟨fits, -, gives⟩ := builder.openTag_gives tag opens
    exact gives.eq_of_ok added

/-- A tag below the limit of offsets can be added. -/
theorem addTag_eq_ok (builder : Builder) {tag : Tag}
    (below : tag.attributeSpan.start + width tag.attributeText ≤ Offset.limit) :
    builder.addTag tag = .ok (builder.grow tag) := by
  unfold addTag
  split
  next closes => simp [grow, closes]
  next opens =>
    obtain ⟨fits, enough, gives⟩ := builder.openTag_gives tag opens
    exact gives.eq_ok (enough below)

/-- Tags in order below the limit grow the tree. -/
theorem foldlM_addTag_eq_ok {tags : List Tag} {start stop : Nat} (builder : Builder)
    (order : Tag.InOrder start tags stop) (below : stop ≤ Offset.limit) :
    tags.foldlM addTag builder = .ok (tags.foldl grow builder) := by
  induction tags generalizing builder start with
  | nil => rfl
  | cons tag more ih =>
    obtain ⟨-, -, attributes, later⟩ := order
    have inside := later.start_le_stop
    rw [List.foldlM_cons, builder.addTag_eq_ok (by omega)]
    exact ih (builder.grow tag) later

end Builder

namespace Region

/-- The region tree of a text, with offsets of any size. -/
def tree (rawTags : List String) (text : List Char) : Region :=
  ((tags rawTags (.atStart text)).foldl Builder.grow .start).finish (width text)

/-- Below the limit the tags of a text can be added to the tree. -/
theorem addTags_eq_ok (rawTags : List String) {text : List Char}
    (fits : width text ≤ Offset.limit) :
    addTags rawTags .start (.atStart text) =
      .ok ((tags rawTags (.atStart text)).foldl Builder.grow .start) := by
  have below : (Cursor.atStart text).offset + width (Cursor.atStart text).rest ≤ Offset.limit := by
    simpa [Cursor.atStart] using fits
  exact Builder.foldlM_addTag_eq_ok .start (inOrder_tags rawTags (.atStart text)) below

/-- A text that ends below the limit of offsets is read as the tree that it describes. -/
theorem parse_eq_ok (rawTags : List String) {text : List Char} (fits : width text ≤ Offset.limit) :
    parse rawTags text = .ok (tree rawTags text) := by
  rw [parse_eq rawTags fits, addTags_eq_ok rawTags fits]
  rfl

/-- Below the limit the tree that a text is read as is the one that it describes. -/
theorem eq_tree_of_parse {rawTags : List String} {text : List Char} {document : Region}
    (fits : width text ≤ Offset.limit) (parsed : parse rawTags text = .ok document) :
    document = tree rawTags text :=
  Except.ok.inj (parsed.symm.trans (parse_eq_ok rawTags fits))

end Region

end SfcIndex.Markup
