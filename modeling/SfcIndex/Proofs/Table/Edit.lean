import SfcIndex.Proofs.Markup.Edit
import SfcIndex.Proofs.Table.Cut
import SfcIndex.Proofs.Table.LongText

/-! # Tables of texts that differ inside one region

When the content of one region at the top level is edited and still is the content of a region
there, only what that region defines can change. What the regions in front define stays as it is,
and what the regions behind define is moved along with their text.
-/

namespace SfcIndex

open Text Markup

/-- Moving a warning twice is moving it by the sum. -/
theorem Warning.move_move (first second : Nat) (warning : Warning) :
    (warning.move first).move second = warning.move (first + second) := by
  cases warning <;> simp [Warning.move, Span.move, Nat.add_assoc]

namespace Table

/-- Moving a table twice is moving it by the sum. -/
theorem move_move (first second : Nat) (table : Table) :
    (table.move first).move second = table.move (first + second) := by
  simp only [move, List.map_map]
  congr 1
  · congr 1
    funext binding
    exact binding.move_move first second
  · congr 1
    funext warning
    exact warning.move_move first second

/-- What several regions at the top level of a file define. -/
def ofRegions (reader : Script.Reader) (options : Options) (text : List Char)
    (regions : List Region) : Except OffsetError Table :=
  return concat (← regions.mapM (ofRegion reader options text))

/-- What the regions before one at the top level of a document define, what that region defines, and
what the regions after it define. -/
structure PartedAt (reader : Script.Reader) (options : Options) (text : List Char)
    (document region : Region) (earlier later : List Region) (before own after : Table) :
    Prop where
  children : document.children = earlier ++ region :: later
  before_eq : ofRegions reader options text earlier = .ok before
  own_eq : ofRegion reader options text region = .ok own
  after_eq : ofRegions reader options text later = .ok after

section Parts

variable {reader : Script.Reader} {options : Options} {text : List Char}

/-- Reading several regions gives what they define or fails. -/
theorem ofRegions_only (reader : Script.Reader) (options : Options) (text : List Char)
    (regions : List Region) :
    Offset.Only (ofRegions reader options text regions)
      (concat (regions.map (part reader options text))) :=
  (Offset.Only.mapM fun region _ => ofRegion_only reader options text region).map concat

/-- A table falls apart at every region of the top level. -/
theorem exists_partedAt {document region : Region} {earlier later : List Region} {table : Table}
    (parsed : Region.parse options.rawTags text = .ok document)
    (children : document.children = earlier ++ region :: later)
    (built : build reader options text = .ok table) :
    ∃ before own after,
      PartedAt reader options text document region earlier later before own after ∧
      table = before.append (own.append after) := by
  obtain ⟨found, parsed', built⟩ := Offset.exists_of_bind built
  cases parsed.symm.trans parsed'
  obtain ⟨tables, collected, whole⟩ := Offset.exists_of_bind built
  cases whole
  rw [children] at collected
  obtain ⟨front, back, inFront, others, rfl⟩ := Offset.exists_of_mapM_append collected
  obtain ⟨own, last, own_eq, behind, rfl⟩ := Offset.exists_of_mapM_cons others
  refine ⟨concat front, own, concat last, ⟨children, ?_, own_eq, ?_⟩, ?_⟩
  · rw [ofRegions, inFront]
    rfl
  · rw [ofRegions, behind]
    rfl
  · rw [concat_append, concat_cons]

end Parts

section Edit

variable {reader : Script.Reader} {options : Options} {front middle rest : List Char}
  {document region : Region}

/-- What the regions in front of an edited one define does not depend on the edit. -/
theorem map_part_finishedIn (options : Options) (front behind : List Char) :
    (Region.finishedIn options.rawTags front).map (part reader options (front ++ behind)) =
      (Region.finishedIn options.rawTags front).map (part reader options front) := by
  apply List.map_congr_left
  intro region member
  exact part_append (Region.mem_children_of_mem_finishedIn member)
    (Region.ending_ne_unclosed_of_mem_finishedIn member) behind

/-- What moved regions define is moved. -/
theorem concat_map_part_move (options : Options) {front rest : List Char}
    (fits : width (front ++ rest) ≤ Offset.limit) (ids : Nat) :
    concat (((Region.tree options.rawTags rest).children.map (·.move (width front) ids)).map
      (part reader options (front ++ rest))) =
        (contents reader options rest).move (width front) := by
  rw [contents, concat_move, List.map_map, List.map_map]
  congr 2
  funext region
  exact part_move ids options fits region

/-- A table is what is defined in front of an edited region, by the region, and behind it. -/
theorem exists_parts_of_holdsMiddle {table : Table}
    (fits : width (front ++ middle ++ rest) ≤ Offset.limit)
    (holds : Region.HoldsMiddle options.rawTags front middle rest document region)
    (built : build reader options (front ++ middle ++ rest) = .ok table) :
    ∃ written after later before own behind, StartsClosing rest written after ∧
      PartedAt reader options (front ++ middle ++ rest) document region
        (Region.finishedIn options.rawTags front) later before own behind ∧
      table = before.append (own.append behind) ∧
      before = concat ((Region.finishedIn options.rawTags front).map (part reader options front)) ∧
      behind = (contents reader options after).move (width (front ++ middle ++ written)) := by
  obtain ⟨written, after, ids, closes, children⟩ := holds.children_eq fits
  obtain ⟨before, own, behind, parts, whole⟩ := exists_partedAt holds.parsed children built
  have text_eq : front ++ middle ++ rest = front ++ middle ++ written ++ after := by
    obtain ⟨-, -, -, -, -, -, rest_eq⟩ := closes
    rw [rest_eq, List.append_assoc _ written]
  refine ⟨written, after, _, before, own, behind, closes, parts, whole, ?_, ?_⟩
  · have same := ofRegions_only _ _ _ _ before parts.before_eq
    rw [List.append_assoc, map_part_finishedIn] at same
    exact same
  · have moved := ofRegions_only _ _ _ _ behind parts.after_eq
    rw [text_eq] at fits moved
    rw [concat_map_part_move options fits] at moved
    exact moved

/-- When the content of a top-level region is exchanged for another content of such a region, in
texts that end below the limit of offsets, the regions before it are the same and define the same,
and what the regions after it define is moved by the difference in length: positions, scopes and
warnings alike. Both tables exist when the names of scripts lie inside their scripts. -/
theorem build_of_edit (reader : Script.Reader) (options : Options)
    {front middle middle' rest : List Char} {document document' region region' : Region}
    (fits : width (front ++ middle ++ rest) ≤ Offset.limit)
    (fits' : width (front ++ middle' ++ rest) ≤ Offset.limit)
    (holds : Region.HoldsMiddle options.rawTags front middle rest document region)
    (holds' : Region.HoldsMiddle options.rawTags front middle' rest document' region') :
    (∀ table table', build reader options (front ++ middle ++ rest) = .ok table →
      build reader options (front ++ middle' ++ rest) = .ok table' →
      ∃ earlier later later' before own own' after after',
        PartedAt reader options (front ++ middle ++ rest) document region earlier later
          before own after ∧
        PartedAt reader options (front ++ middle' ++ rest) document' region' earlier later'
          before own' after' ∧
        table = before.append (own.append after) ∧
        table' = before.append (own'.append after') ∧
        after'.move (width middle) = after.move (width middle')) ∧
    (ScriptsStayInside reader options (front ++ middle ++ rest) →
      ScriptsStayInside reader options (front ++ middle' ++ rest) →
      ∃ table table', build reader options (front ++ middle ++ rest) = .ok table ∧
        build reader options (front ++ middle' ++ rest) = .ok table') := by
  constructor
  · intro table table' built built'
    obtain ⟨written, last, later, before, own, after, closes, parts, whole, before_eq, after_eq⟩ :=
      exists_parts_of_holdsMiddle fits holds built
    obtain ⟨written', last', later', before', own', after', closes', parts', whole', before_eq',
      after_eq'⟩ := exists_parts_of_holdsMiddle fits' holds' built'
    obtain ⟨rfl, rfl⟩ := closes.unique closes'
    obtain rfl : before' = before := before_eq'.trans before_eq.symm
    refine ⟨_, later, later', before', own, own', after, after', parts, parts', whole, whole', ?_⟩
    rw [after_eq, after_eq', move_move, move_move]
    congr 1
    simp only [width_append]
    omega
  · intro scripts scripts'
    exact ⟨_, _, (build_gives reader options fits).eq_ok ((below_contents scripts).mono fits),
      (build_gives reader options fits').eq_ok ((below_contents scripts').mono fits')⟩

/-- So it is when the edit leaves an element of a template open and puts a stray closing tag, a
quote and a comment into it. -/
theorem build_of_edit_unbalanced :
    let front := "<style>.a\x7b</style><template>".toList
    let middle := "<p ref='x'/>".toList
    let middle' := "</q>\"<!-- <i> --><p ref='xy'><b v-for='z in w'>".toList
    let rest := "</template><script setup>let k</script><style>.b\x7b".toList
    ∃ document document' region region',
      Region.HoldsMiddle ({} : Options).rawTags front middle rest document region ∧
      Region.HoldsMiddle ({} : Options).rawTags front middle' rest document' region' ∧
      ∃ table table', build Script.read {} (front ++ middle ++ rest) = .ok table ∧
        build Script.read {} (front ++ middle' ++ rest) = .ok table' ∧
        ∃ earlier later later' before own own' after after',
          PartedAt Script.read {} (front ++ middle ++ rest) document region earlier later
            before own after ∧
          PartedAt Script.read {} (front ++ middle' ++ rest) document' region' earlier later'
            before own' after' ∧
          table = before.append (own.append after) ∧
          table' = before.append (own'.append after') ∧
          after'.move (width middle) = after.move (width middle') := by
  intro front middle middle' rest
  have fits : width (front ++ middle ++ rest) ≤ Offset.limit := by decide
  have fits' : width (front ++ middle' ++ rest) ≤ Offset.limit := by decide
  have holds : Region.HoldsMiddle ({} : Options).rawTags front middle rest _ _ :=
    ⟨Region.parse_eq_ok _ fits, List.get_mem _ ⟨1, by decide +kernel⟩, by decide +kernel⟩
  have holds' : Region.HoldsMiddle ({} : Options).rawTags front middle' rest _ _ :=
    ⟨Region.parse_eq_ok _ fits', List.get_mem _ ⟨1, by decide +kernel⟩, by decide +kernel⟩
  have edit := build_of_edit Script.read {} fits fits' holds holds'
  obtain ⟨table, table', built, built'⟩ := edit.2 (by decide +kernel) (by decide +kernel)
  exact ⟨_, _, _, _, holds, holds', table, table', built, built', edit.1 table table' built built'⟩

end Edit

section TooLong

/-- What stands in front of the edited content: an element with a template and a comment around it
in the value of an attribute, and the opening tag of the edited element. -/
def editFront : List Char := "<i b=\"<!--<template><p ref=y><!--\"/><a>".toList

/-- What stands behind the edited content: more letters than fit, and a tag that ends, but for the
bits that are cut off, at the first `<!--` of `editFront` or as much later as the content is long.
-/
def editRest : List Char := "</a>".toList ++ (letters 4294967255 ++ "<e/>".toList)

/-- The tags in front of the edited content are given as they are found. -/
theorem run_editFront (behind : List Char) :
    ∃ builder, Region.Run Region.defaultRawTags (editFront ++ behind)
      [⟨.selfClosing, "i", ⟨0, 36⟩, ⟨2, 34⟩, " b=\"<!--<template><p ref=y><!--\"".toList⟩,
        ⟨.opening, "a", ⟨36, 39⟩, ⟨38, 38⟩, []⟩] builder ⟨editFront ++ behind, ⟨39, behind⟩⟩ := by
  have first : Cursor.nextTag? ⟨0, editFront ++ behind⟩ = some
      (⟨.selfClosing, "i", ⟨0, 36⟩, ⟨2, 34⟩, " b=\"<!--<template><p ref=y><!--\"".toList⟩,
        ⟨36, "<a>".toList ++ behind⟩) :=
    Cursor.nextTag?_of_openingTag? (by decide) rfl
  have second : Cursor.nextTag? ⟨36, "<a>".toList ++ behind⟩ = some
      (⟨.opening, "a", ⟨36, 39⟩, ⟨38, 38⟩, []⟩, ⟨39, behind⟩) :=
    Cursor.nextTag?_of_openingTag? (by decide) rfl
  have begun : Region.Run Region.defaultRawTags (editFront ++ behind) [] .start _ := .start
  have run := begun.advance_below first (by decide) rfl
  exact ⟨_, run.advance_below second (by decide) (by decide +kernel)⟩

/-- The tags that are found without any content. -/
def emptyTags : List Tag :=
  [⟨.selfClosing, "i", ⟨0, 36⟩, ⟨2, 34⟩, " b=\"<!--<template><p ref=y><!--\"".toList⟩,
    ⟨.opening, "a", ⟨36, 39⟩, ⟨38, 38⟩, []⟩, ⟨.closing, "a", ⟨39, 43⟩, ⟨42, 42⟩, []⟩,
    ⟨.selfClosing, "e", ⟨2, 6⟩, ⟨4, 4⟩, []⟩]

/-- Without any content the last tag takes the scanner back to a comment without an end. -/
theorem parse_emptyEdit :
    Region.parse Region.defaultRawTags (editFront ++ [] ++ editRest) =
      .ok ((emptyTags.foldl Builder.grow .start).finish 6) := by
  let rest := letters 4294967255 ++ "<e/>".toList
  have size : Offset.cut (width (editFront ++ editRest)) = 6 := by
    have split := congrArg width (List.append_assoc editFront "</a>".toList rest).symm
    exact (congrArg Offset.cut (split.trans (width_around _ _ _))).trans (by decide +kernel)
  have closing : Cursor.nextTag? ⟨39, editRest⟩ = some
      (⟨.closing, "a", ⟨39, 43⟩, ⟨42, 42⟩, []⟩, ⟨43, rest⟩) :=
    Cursor.nextTag?_of_closingTag? rfl rfl
  have found : Cursor.nextTag? ⟨43, rest⟩ = some
      (⟨.selfClosing, "e", ⟨4294967298, 4294967302⟩, ⟨4294967300, 4294967300⟩, []⟩,
        ⟨4294967302, []⟩) := by
    rw [Cursor.nextTag?_letters]
    exact Cursor.nextTag?_of_openingTag? (by decide) rfl
  let comment := "<template><p ref=y><!--\"/><a></a>".toList ++ rest
  have back : (⟨editFront ++ editRest, ⟨43, rest⟩⟩ : Scanner).nextTag = .ok
      (some ⟨.selfClosing, "e", ⟨2, 6⟩, ⟨4, 4⟩, []⟩,
        ⟨editFront ++ editRest, ⟨6, '<' :: '!' :: '-' :: '-' :: comment⟩⟩) :=
    Scanner.nextTag_of_record found rfl rfl
  have plain : '-' ∉ rest := List.not_mem_append (not_mem_letters (by decide) _) (by decide)
  have passes (rest : List Char) :
      pastComment 10 ("<template><p ref=y><!--\"/><a></a>".toList ++ rest) =
        pastComment 43 rest := rfl
  obtain ⟨builder, begun⟩ := run_editFront editRest
  have run := begun.advance_below closing (by decide) rfl
  have ran : Region.Run Region.defaultRawTags (editFront ++ editRest) emptyTags _ _ :=
    run.advance back (by decide) (Region.resume_plain rfl _)
  have none := Cursor.nextTag?_unended ((passes rest).trans (pastComment_plain plain 43))
  rw [List.append_nil, ran.parse_eq (Scanner.nextTag_of_none none), size]

/-- The tags that are found with a letter for the content. -/
def letterTags : List Tag :=
  [⟨.selfClosing, "i", ⟨0, 36⟩, ⟨2, 34⟩, " b=\"<!--<template><p ref=y><!--\"".toList⟩,
    ⟨.opening, "a", ⟨36, 39⟩, ⟨38, 38⟩, []⟩, ⟨.closing, "a", ⟨40, 44⟩, ⟨43, 43⟩, []⟩,
    ⟨.selfClosing, "e", ⟨3, 7⟩, ⟨5, 5⟩, []⟩, ⟨.opening, "template", ⟨10, 20⟩, ⟨19, 19⟩, []⟩,
    ⟨.opening, "p", ⟨20, 29⟩, ⟨22, 28⟩, " ref=y".toList⟩]

/-- With a letter for the content the last tag takes the scanner back behind the start of the
comment, and the template in the value of the attribute is found. -/
theorem parse_letterEdit :
    Region.parse Region.defaultRawTags (editFront ++ ['z'] ++ editRest) =
      .ok ((letterTags.foldl Builder.grow .start).finish 7) := by
  let rest := letters 4294967255 ++ "<e/>".toList
  let text := editFront ++ 'z' :: editRest
  have size : Offset.cut (width text) = 7 := by
    have split := congrArg width (List.append_assoc editFront "z</a>".toList rest).symm
    exact (congrArg Offset.cut (split.trans (width_around _ _ _))).trans (by decide +kernel)
  have closing : Cursor.nextTag? ⟨39, "z".toList ++ editRest⟩ = some
      (⟨.closing, "a", ⟨40, 44⟩, ⟨43, 43⟩, []⟩, ⟨44, rest⟩) := by
    rw [Cursor.nextTag?_text (by decide)]
    exact Cursor.nextTag?_of_closingTag? rfl rfl
  have found : Cursor.nextTag? ⟨44, rest⟩ = some
      (⟨.selfClosing, "e", ⟨4294967299, 4294967303⟩, ⟨4294967301, 4294967301⟩, []⟩,
        ⟨4294967303, []⟩) := by
    rw [Cursor.nextTag?_letters]
    exact Cursor.nextTag?_of_openingTag? (by decide) rfl
  let comment := "\"/><a>z</a>".toList ++ rest
  let quoted := "<template><p ref=y><!--".toList ++ comment
  have back : (⟨text, ⟨44, rest⟩⟩ : Scanner).nextTag = .ok
      (some ⟨.selfClosing, "e", ⟨3, 7⟩, ⟨5, 5⟩, []⟩, ⟨text, ⟨7, "!--".toList ++ quoted⟩⟩) :=
    Scanner.nextTag_of_record found rfl rfl
  have template : Cursor.nextTag? ⟨7, "!--".toList ++ quoted⟩ = some
      (⟨.opening, "template", ⟨10, 20⟩, ⟨19, 19⟩, []⟩,
        ⟨20, "<p ref=y><!--".toList ++ comment⟩) := by
    rw [Cursor.nextTag?_text (by decide)]
    exact Cursor.nextTag?_of_openingTag? (by decide) rfl
  have inner : Cursor.nextTag? ⟨20, "<p ref=y><!--".toList ++ comment⟩ = some
      (⟨.opening, "p", ⟨20, 29⟩, ⟨22, 28⟩, " ref=y".toList⟩, ⟨29, "<!--".toList ++ comment⟩) :=
    Cursor.nextTag?_of_openingTag? (by decide) rfl
  have plain : '-' ∉ comment := not_mem_around (by decide) (by decide) (by decide) _
  obtain ⟨builder, begun⟩ := run_editFront ('z' :: editRest)
  have first := begun.advance_below closing (by decide) rfl
  have second := first.advance back (by decide) (Region.resume_plain rfl _)
  have third := second.advance_below template (by decide) (by decide +kernel)
  have ran : Region.Run Region.defaultRawTags text letterTags _
      ⟨text, ⟨29, "<!--".toList ++ comment⟩⟩ :=
    third.advance_below inner (by decide) (by decide +kernel)
  have none := Cursor.nextTag?_unended (pastComment_plain plain 33)
  rw [List.append_assoc, ← size]
  exact ran.parse_eq (Scanner.nextTag_of_none none)

end TooLong

/-- In texts that are too long an edit may change what is read behind the edited region: with one
more letter a template is found in a value in front of the region. -/
theorem build_of_edit_tooLong :
    ∃ document document' region region' table table',
      Region.HoldsMiddle ({} : Options).rawTags editFront [] editRest document region ∧
      Region.HoldsMiddle ({} : Options).rawTags editFront ['z'] editRest document' region' ∧
      build Script.read {} (editFront ++ [] ++ editRest) = .ok table ∧
      build Script.read {} (editFront ++ ['z'] ++ editRest) = .ok table' ∧
      ¬ ∃ earlier later later' before own own' after after',
        PartedAt Script.read {} (editFront ++ [] ++ editRest) document region earlier later
          before own after ∧
        PartedAt Script.read {} (editFront ++ ['z'] ++ editRest) document' region' earlier later'
          before own' after' ∧
        table = before.append (own.append after) ∧
        table' = before.append (own'.append after') ∧
        after'.move (width []) = after.move (width ['z']) := by
  let document := (emptyTags.foldl Builder.grow .start).finish 6
  let document' := (letterTags.foldl Builder.grow .start).finish 7
  let region := document.children.get ⟨1, by decide +kernel⟩
  let region' := document'.children.get ⟨1, by decide +kernel⟩
  have holds : Region.HoldsMiddle ({} : Options).rawTags editFront [] editRest document region :=
    ⟨parse_emptyEdit, List.get_mem _ _, by decide +kernel⟩
  have holds' : Region.HoldsMiddle ({} : Options).rawTags editFront ['z'] editRest document'
      region' :=
    ⟨parse_letterEdit, List.get_mem _ _, by decide +kernel⟩
  have built : build Script.read {} (editFront ++ [] ++ editRest) = .ok empty :=
    build_of_plain parse_emptyEdit (by decide +kernel)
  have built' : build Script.read {} (editFront ++ ['z'] ++ editRest) =
      .ok ⟨[⟨"y", .ref, 27, none⟩], _⟩ :=
    build_of_template Script.read parse_letterEdit
      (List.getLast?_eq_some_getLast (List.ne_nil_of_length_pos (by decide +kernel)))
      (by decide +kernel) (by decide +kernel) (by decide +kernel) (by decide +kernel)
  refine ⟨document, document', region, region', _, _, holds, holds', built, built', ?_⟩
  rintro ⟨earlier, later, later', before, own, own', after, after', -, parts', whole, whole', moved⟩
  have plain : Section.ofRegion? region' = none := by decide +kernel
  cases (ofRegion_plain plain).symm.trans parts'.own_eq
  -- Nothing is defined in the first text, so the name is defined behind the region in the second.
  have nothing : before.bindings ++ (own.bindings ++ after.bindings) = [] :=
    (congrArg Table.bindings whole).symm
  have name : before.bindings ++ after'.bindings = [⟨"y", .ref, 27, none⟩] :=
    (congrArg Table.bindings whole').symm
  obtain ⟨none, none'⟩ := List.append_eq_nil_iff.1 nothing
  rw [none, List.nil_append] at name
  have sizes := congrArg (fun table => table.bindings.length) moved
  simp only [move, List.length_map, name, (List.append_eq_nil_iff.1 none').2] at sizes
  cases sizes

end Table

end SfcIndex
