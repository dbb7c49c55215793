import SfcIndex.Proofs.Bytes.Access
import SfcIndex.Proofs.Markup.Tags
import SfcIndex.Proofs.Text.Checked

/-! # Scanning below the limit of offsets

In a text that ends below the limit nothing is cut off the offsets of a tag (`Tag.record_eq`). So
the scanner finds the tags of the text one behind the other (`Scanner.nextTag_eq`), and reading a
file is adding them to the tree (`Region.readTags_eq`).
-/

namespace SfcIndex

/-- Nothing is cut off a place below the limit. -/
theorem Offset.cut_eq {place : Nat} (fits : place ≤ limit) : cut place = place :=
  Nat.mod_eq_of_lt (Nat.lt_succ_of_le fits)

namespace Bytes.On

open Text Markup

variable {text : List Char} {cursor next : Cursor}

/-- The place after a tag is in the text. -/
theorem afterTag {tag : Tag} (on : On text cursor) (found : cursor.nextTag? = some (tag, next)) :
    On text next := by
  obtain ⟨before, skips, place⟩ := Region.exists_of_nextTag? found
  apply on.forward (skips.trans (List.append_cons before '>' next.rest))
  rw [place, width_append, Nat.add_assoc]
  rfl

/-- The place from which scanning goes on after a tag is in the text. -/
theorem resume (on : On text next) (rawTags : List String) (tag : Tag) :
    On text (Region.resume rawTags tag next) := by
  obtain ⟨front, skips, place⟩ := Region.resume_skips rawTags tag next
  exact on.forward skips place

end Bytes.On

namespace Markup

open Text

/-- A tag that ends below the limit is kept as it is. -/
theorem Tag.record_eq {tag : Tag} (text : List Char) (nonempty : tag.span.start < tag.span.stop)
    (attributes : tag.attributeSpan.start ≤ tag.attributeSpan.stop)
    (inside : tag.attributeSpan.stop ≤ tag.span.stop) (fits : tag.span.stop ≤ Offset.limit) :
    tag.record text = .ok tag := by
  have stop : tag.span.stop - 1 + 1 = tag.span.stop := by omega
  rw [record, Offset.cut_eq (by omega), Offset.cut_eq (by omega), Offset.cut_eq (by omega),
    Offset.cut_eq (by omega), Offset.add_eq_ok (by omega), stop]
  change Except.ok { tag with
    attributeText := if tag.attributeSpan = tag.attributeSpan then tag.attributeText else _ } = _
  rw [if_pos rfl]

namespace Scanner

variable {text : List Char} {cursor next : Cursor} {tag : Tag}

/-- The scanner goes on behind a tag that was kept as it was found. -/
theorem after_eq (stops : next.offset = tag.span.stop) :
    (⟨text, cursor⟩ : Scanner).after tag next = ⟨text, next⟩ := by
  rw [after, if_pos stops.symm]

/-- A tag that is found is given with the offsets that are kept for it. -/
theorem nextTag_of_record {kept : Tag} {after : Scanner}
    (found : cursor.nextTag? = some (tag, next)) (records : tag.record text = .ok kept)
    (goes : (⟨text, cursor⟩ : Scanner).after kept next = after) :
    (⟨text, cursor⟩ : Scanner).nextTag = .ok (some kept, after) := by
  rw [nextTag, found]
  dsimp only
  rw [records]
  exact congrArg (fun scanner => Except.ok (some kept, scanner)) goes

/-- A tag that ends below the limit is given as it is found. -/
theorem nextTag_of_below (found : cursor.nextTag? = some (tag, next))
    (below : tag.span.stop ≤ Offset.limit) :
    (⟨text, cursor⟩ : Scanner).nextTag = .ok (some tag, ⟨text, next⟩) := by
  obtain ⟨site⟩ := Cursor.nextTag?_site found
  have attributes := site.attributeStop_eq
  have stop := site.stop_eq
  exact nextTag_of_record found
    (Tag.record_eq text site.start_lt_stop (by omega) (by omega) below) (after_eq site.next_eq)

/-- In a text that ends below the limit the scanner finds the next tag of the text. -/
theorem nextTag_of_some (fits : cursor.offset + width cursor.rest ≤ Offset.limit)
    (found : cursor.nextTag? = some (tag, next)) :
    (⟨text, cursor⟩ : Scanner).nextTag = .ok (some tag, ⟨text, next⟩) := by
  obtain ⟨site⟩ := Cursor.nextTag?_site found
  have size := site.offset_add_width
  have stop := site.next_eq
  exact nextTag_of_below found (by omega)

/-- Without a tag the scanner goes to the place where the search for one ends. -/
theorem nextTag_of_none (none : cursor.nextTag? = none) :
    (⟨text, cursor⟩ : Scanner).nextTag = .ok (.none, ⟨text, cursor.searched cursor⟩) := by
  rw [nextTag, none]

/-- Below the limit the scanner finds the tags that the text has. -/
theorem nextTag_eq (text : List Char) (fits : cursor.offset + width cursor.rest ≤ Offset.limit) :
    (⟨text, cursor⟩ : Scanner).nextTag = .ok
      (match cursor.nextTag? with
        | none => (none, ⟨text, cursor.searched cursor⟩)
        | some (tag, next) => (some tag, ⟨text, next⟩)) := by
  cases found : cursor.nextTag? with
  | none => exact nextTag_of_none found
  | some reading => exact nextTag_of_some fits found

/-- A tag that the scanner gives was found in the text, and the scanner is in the text after it. -/
theorem exists_found (on : Bytes.On text cursor) {after : Scanner}
    (given : (⟨text, cursor⟩ : Scanner).nextTag = .ok (some tag, after)) :
    ∃ found place next, cursor.nextTag? = some (found, place) ∧ found.record text = .ok tag ∧
      after = ⟨text, next⟩ ∧ Bytes.On text next := by
  cases read : cursor.nextTag? with
  | none =>
    rw [nextTag_of_none read] at given
    cases given
  | some reading =>
    obtain ⟨found, place⟩ := reading
    rw [nextTag, read] at given
    obtain ⟨kept, records, same⟩ := Offset.exists_of_bind given
    cases same
    unfold after
    split
    · exact ⟨found, place, _, rfl, records, rfl, on.afterTag read⟩
    · exact ⟨found, place, _, rfl, records, rfl, (Bytes.On.atStart text).seek _⟩

end Scanner

namespace Region

variable {rawTags : List String} {text : List Char}

/-- The tree after all tags of a text from a place on. -/
def addTags (rawTags : List String) (builder : Builder) (cursor : Cursor) :
    Except OffsetError Builder :=
  (tags rawTags cursor).foldlM Builder.addTag builder

/-- Without a tag the tree is finished. -/
theorem addTags_of_none {cursor : Cursor} (none : cursor.nextTag? = none) (builder : Builder) :
    addTags rawTags builder cursor = .ok builder := by
  rw [addTags, tags_of_none none]
  rfl

/-- With a tag the others are added after it. -/
theorem addTags_of_some {cursor next : Cursor} {tag : Tag}
    (found : cursor.nextTag? = some (tag, next)) (builder : Builder) :
    addTags rawTags builder cursor =
      (builder.addTag tag).bind (addTags rawTags · (resume rawTags tag next)) := by
  rw [addTags, tags_of_some found, List.foldlM_cons]
  rfl

/-- The places from which scanning goes on are in the same text. -/
theorem offset_resume_add_width {cursor next : Cursor} {tag : Tag}
    (found : cursor.nextTag? = some (tag, next)) :
    (resume rawTags tag next).offset + width (resume rawTags tag next).rest =
      cursor.offset + width cursor.rest := by
  obtain ⟨site⟩ := Cursor.nextTag?_site found
  obtain ⟨skipped, same, place⟩ := resume_skips rawTags tag next
  have size := site.offset_add_width
  rw [same, width_append] at size
  omega

/-- Below the limit a text is read by adding its tags one after the other. -/
theorem readTags_eq {cursor : Cursor} (fits : cursor.offset + width cursor.rest ≤ Offset.limit)
    (builder : Builder) :
    Builder.readTags rawTags builder ⟨text, cursor⟩ = some (addTags rawTags builder cursor) := by
  fun_induction tags rawTags cursor generalizing builder with
  | case1 cursor none =>
    rw [Builder.readTags, Scanner.nextTag_of_none none, addTags_of_none none]
  | case2 cursor tag next found ih =>
    rw [Builder.readTags, Scanner.nextTag_of_some fits found, addTags_of_some found]
    dsimp only
    cases builder.addTag tag with
    | error fault => rfl
    | ok grown => exact ih (by rwa [offset_resume_add_width found]) grown

/-- Below the limit a text is read as the tree that its tags make. -/
theorem parse_eq (rawTags : List String) (fits : width text ≤ Offset.limit) :
    parse rawTags text =
      (addTags rawTags .start (.atStart text)).map (·.finish (width text)) := by
  have below : (Cursor.atStart text).offset + width (Cursor.atStart text).rest ≤ Offset.limit := by
    simpa [Cursor.atStart] using fits
  rw [parse, Scanner.atStart, readTags_eq below, Offset.cut_eq fits]
  rfl

end Region

end Markup

end SfcIndex
