import SfcIndex.Proofs.Markup.Case
import SfcIndex.Proofs.Table.LongText
import SfcIndex.Script.Read

/-! # Tables of texts whose tag names differ in case

Tag names may be written in any case: changing the case of letters in the names of tags, outside
scripts and styles, leaves the bindings of a text as they are, and of the warnings it changes only
the case of the names that they mention (`Table.build_recased`).
-/

namespace SfcIndex

open Text Markup

/-- The warning with the tag name in it in small letters. -/
def Warning.caseless : Warning → Warning
  | .unclosedRegion name region => .unclosedRegion (lowerName name) region
  | warning => warning

/-- What a region is for does not depend on the case of its tag. -/
theorem Section.ofRegion?_caseless (region : Region) :
    Section.ofRegion? region.caseless = Section.ofRegion? region := by
  unfold ofRegion?
  congr 1
  funext kind
  exact region.isTag_caseless kind.tag

/-- The case of tags does not count in a template. -/
theorem Template.bindings_caseless (region : Region) :
    Template.bindings region.caseless = Template.bindings region := by
  have element (node : Region) : elementBindings node.caseless = elementBindings node := by
    rw [elementBindings, elementBindings, Region.attributes_caseless, Region.span_caseless]
  rw [bindings, bindings, Region.descendants_caseless, List.mapM_map]
  exact congrArg (fun read => (List.mapM read region.descendants) >>= _) (funext element)

namespace Table

/-- The table with the tag names in its warnings in small letters. -/
def caseless (table : Table) : Table :=
  { table with warnings := table.warnings.map Warning.caseless }

theorem append_caseless (first second : Table) :
    (first.append second).caseless = first.caseless.append second.caseless := by
  simp only [append, caseless, List.map_append]

theorem concat_caseless (tables : List Table) :
    (concat tables).caseless = concat (tables.map caseless) := by
  induction tables with
  | nil => rfl
  | cons first more ih => rw [List.map_cons, concat_cons, concat_cons, append_caseless, ih]

section Regions

variable (reader : Script.Reader) (options : Options) (text : List Char) (region : Region)

/-- The content of a region does not depend on the case of its tag, and a warning about it loses
only the case. -/
theorem content?_caseless :
    content? text region.caseless =
      (content? text region).map fun found => (found.1, found.2.map Warning.caseless) := by
  obtain ⟨opening, ending, children⟩ := region
  rw [Region.caseless]
  cases ending <;> rfl

/-- What a content gives does not depend on the case of the tag around it. -/
theorem ofContent_caseless (content : Span) (kind : Section) :
    ofContent reader text region.caseless content kind =
      ofContent reader text region content kind := by
  have script : ofScript reader region.caseless content = ofScript reader region content := by
    funext inside
    rw [ofScript, ofScript, languageOf, languageOf, Region.hasAttribute, Region.hasAttribute,
      Region.attribute?_caseless, Region.attribute?_caseless]
  cases kind with
  | template => rw [ofContent, ofContent, Template.bindings_caseless]
  | script => rw [ofContent, ofContent, script]
  | style => rfl

/-- What is read of a region's content mentions no tag name. -/
theorem contentPart_caseless (content : Span) (kind : Section) :
    (contentPart reader text region content kind).caseless =
      contentPart reader text region content kind := by
  cases kind with
  | template => rfl
  | script =>
    rw [contentPart]
    cases content.slice? text with
    | none => rfl
    | some script =>
      rw [Option.elim_some, scriptPart, caseless]
      dsimp only
      rw [List.map_append, List.map_map, apply_ite (List.map Warning.caseless)]
      rfl
  | style =>
    rw [contentPart]
    cases content.slice? text with
    | none => rfl
    | some style => rfl

/-- A region defines the same in any case, and its warnings differ in the case of its name. -/
theorem ofRegion_caseless :
    ofRegion reader options text region.caseless =
      (ofRegion reader options text region).map caseless := by
  unfold ofRegion
  rw [Section.ofRegion?_caseless, content?_caseless]
  cases (Section.ofRegion? region).filter options.enables with
  | none => rfl
  | some kind =>
    cases content? text region with
    | none => rfl
    | some found =>
      obtain ⟨content, warnings⟩ := found
      dsimp only [Option.map_some]
      rw [ofContent_caseless]
      cases read : ofContent reader text region content kind with
      | error error => rfl
      | ok table =>
        have part := ofContent_only reader text region content kind table read
        have fixed := append_caseless ⟨[], warnings⟩ table
        rw [part, contentPart_caseless, ← part] at fixed
        exact congrArg Except.ok fixed.symm

/-- Regions without the case of their tags give their tables without the case in the warnings. -/
theorem ofRegions_caseless (regions : List Region) :
    (regions.map Region.caseless).mapM (ofRegion reader options text) =
      (regions.mapM (ofRegion reader options text)).map (List.map caseless) := by
  induction regions with
  | nil => rfl
  | cons region more ih =>
    rw [List.map_cons, List.mapM_cons, List.mapM_cons, ofRegion_caseless, ih]
    cases ofRegion reader options text region with
    | error error => rfl
    | ok first =>
      cases more.mapM (ofRegion reader options text) with
      | error error => rfl
      | ok rest => rfl

/-- The table of a text but for the case of names is read off its tree but for the case of names. -/
theorem build_caseless :
    (build reader options text).map caseless =
      (Region.parse options.rawTags text).map Region.caseless >>= fun document =>
        (document.children.mapM (ofRegion reader options text)).map concat := by
  unfold build
  cases Region.parse options.rawTags text with
  | error error => rfl
  | ok document =>
    change _ = (document.caseless.children.mapM (ofRegion reader options text)).map concat
    rw [Region.children_caseless, ofRegions_caseless]
    change Except.map caseless (document.children.mapM (ofRegion reader options text) >>= _) = _
    cases document.children.mapM (ofRegion reader options text) with
    | error error => rfl
    | ok tables => exact congrArg Except.ok (concat_caseless tables)

end Regions

/-- A span does not lie in the content of a script or a style at the top level of a text. -/
def OutsideCode (options : Options) (text : List Char) (span : Span) : Prop :=
  ∀ document, Region.parse options.rawTags text = .ok document → ∀ region ∈ document.children,
    (Section.ofRegion? region = some .script ∨ Section.ofRegion? region = some .style) →
      region.isSelfClosing = false →
        (region.body (Offset.cut (width text))).contains span = false

/-- An offset lies in the name of a tag outside scripts and styles that is found while a text is
read, or in what marks its start. -/
def InTagName (options : Options) (text : List Char) (offset : Nat) : Prop :=
  ∃ tags builder scanner, Region.Run options.rawTags text tags builder scanner ∧
    ∃ tag ∈ tags, OutsideCode options text tag.span ∧
      tag.headSpan.start ≤ offset ∧ offset < tag.headSpan.stop

/-- Below the limit the tags that are found are those of the text. -/
theorem inTagName_iff {options : Options} {text : List Char} (fits : width text ≤ Offset.limit)
    {offset : Nat} :
    InTagName options text offset ↔ ∃ tag ∈ Region.tags options.rawTags (.atStart text),
      (∀ region ∈ (Region.tree options.rawTags text).children,
        (Section.ofRegion? region = some .script ∨ Section.ofRegion? region = some .style) →
          region.isSelfClosing = false → (region.body (width text)).contains tag.span = false) ∧
      tag.headSpan.start ≤ offset ∧ offset < tag.headSpan.stop := by
  have parsed := Region.parse_eq_ok options.rawTags fits
  constructor
  · rintro ⟨tags, builder, scanner, run, tag, member, outside, head⟩
    obtain ⟨cursor, rfl, pass⟩ := run.exists_pass fits
    refine ⟨tag, ?_, ?_, head⟩
    · rw [pass.tags_eq]
      exact List.mem_append_left _ member
    · have inside := outside _ parsed
      rwa [Offset.cut_eq fits] at inside
  · rintro ⟨tag, member, outside, head⟩
    obtain ⟨tags, last, stop, pass, none, -, -⟩ := Region.exists_pass options.rawTags fits
    refine ⟨tags, last, _, pass.run fits, tag, ?_, ?_, head⟩
    · rwa [pass.tags_eq, Region.tags_of_none none, List.append_nil] at member
    · intro document same
      rw [Region.eq_tree_of_parse fits same, Offset.cut_eq fits]
      exact outside

/-- A tag stands in what is read of a region at the top level, or in front of it or behind it. -/
theorem body_apart {rawTags : List String} {text : List Char} {region : Region}
    (member : region ∈ (Region.tree rawTags text).children)
    {tag : Tag} (read : tag ∈ Region.tags rawTags (.atStart text)) :
    (region.body (width text)).contains tag.span = true ∨
      tag.span.stop ≤ (region.body (width text)).start ∨
      (region.body (width text)).stop ≤ tag.span.start := by
  have itself : region ∈ region.descendants := by
    rw [Region.descendants_eq]
    exact List.mem_cons_self
  obtain ⟨builder, opening, known, is⟩ :=
    Region.exists_tag_of_mem (List.mem_flatMap.2 ⟨region, member, itself⟩)
  have start : (region.body (width text)).start = opening.span.stop := by
    rw [Region.body, Region.tagSpan, is]
    rfl
  obtain ⟨next, ⟨site⟩⟩ := Region.site_of_mem_tags read
  have stop_le : tag.span.stop ≤ width text := by
    have whole : next.offset + width next.rest = 0 + width text := site.offset_add_width
    have := site.next_eq
    omega
  rcases Region.tags_apart known read with rfl | behind | front
  · exact .inr (.inl (Nat.le_of_eq start.symm))
  · have inside (stop : tag.span.stop ≤ (region.body (width text)).stop) :
        (region.body (width text)).contains tag.span = true :=
      Span.contains_iff.2 ⟨start ▸ behind, stop⟩
    cases ending : region.ending with
    | closedBy span =>
      obtain ⟨closing, closes, rfl⟩ := Region.exists_closing_of_mem member ending
      have stop : (region.body (width text)).stop = closing.span.start := by
        rw [Region.body, Region.contentStop?, ending]
        rfl
      obtain ⟨after, ⟨site'⟩⟩ := Region.site_of_mem_tags closes
      have nonempty := site'.start_lt_stop
      rcases Region.tags_apart closes read with rfl | later | earlier
      · exact .inr (.inr (Nat.le_of_eq stop))
      · exact .inr (.inr (by omega))
      · exact .inl (inside (by omega))
    | _ =>
      have stop : (region.body (width text)).stop = width text := by
        rw [Region.body, Region.contentStop?, ending]
        rfl
      exact .inl (inside (by omega))
  · have := site.start_lt_stop
    obtain ⟨after, ⟨site'⟩⟩ := Region.site_of_mem_tags known
    have := site'.start_lt_stop
    exact .inr (.inl (by omega))

section Recased

variable {reader : Script.Reader} {options : Options} {text text' : List Char} {region : Region}

/-- No name that may change stands in the content of a script or a style. -/
theorem slice?_body (fits : width text ≤ Offset.limit)
    (recased : Recased (InTagName options text) 0 text text')
    (member : region ∈ (Region.tree options.rawTags text).children)
    (code : Section.ofRegion? region = some .script ∨ Section.ofRegion? region = some .style)
    (opened : region.isSelfClosing = false) :
    (region.body (width text)).slice? text' = (region.body (width text)).slice? text := by
  apply recased.slice?_eq
  intro place after before named
  obtain ⟨tag, read, outside, start, stop⟩ := (inTagName_iff fits).1 named
  obtain ⟨next, ⟨site⟩⟩ := Region.site_of_mem_tags read
  obtain ⟨-, -, attributes⟩ := site.parts_le
  have attributes' := site.attributeStop_eq
  dsimp only [Tag.headSpan] at start stop
  rcases body_apart member read with inside | front | behind
  · have apart := outside region member code opened
    rw [inside] at apart
    cases apart
  · omega
  · omega

/-- A region at the top level defines in the changed text what it defined. -/
theorem ofRegion_recased (fits : width text ≤ Offset.limit)
    (recased : Recased (InTagName options text) 0 text text')
    (member : region ∈ (Region.tree options.rawTags text).children) :
    ofRegion reader options text' region = ofRegion reader options text region := by
  have content : content? text' region = content? text region := by
    unfold content?
    rw [recased.width_eq]
  unfold ofRegion
  rw [content]
  cases enabled : (Section.ofRegion? region).filter options.enables with
  | none => rfl
  | some kind =>
    have is := (Option.filter_eq_some_iff.1 enabled).1
    cases known : content? text region with
    | none => rfl
    | some found =>
      obtain ⟨body, warnings⟩ := found
      obtain ⟨opened, rfl, -⟩ := content?_eq_some known
      rw [Offset.cut_eq fits]
      cases kind with
      | template => rfl
      | script =>
        dsimp only [ofContent]
        rw [slice?_body fits recased member (.inl is) opened]
      | style =>
        dsimp only [ofContent]
        rw [slice?_body fits recased member (.inr is) opened]

/-- A text with other cases in its tag names gives the tables of the same regions. -/
theorem ofRegions_recased (fits : width text ≤ Offset.limit)
    (recased : Recased (InTagName options text) 0 text text')
    {regions : List Region}
    (top : ∀ region ∈ regions, region ∈ (Region.tree options.rawTags text).children) :
    regions.mapM (ofRegion reader options text') = regions.mapM (ofRegion reader options text) := by
  induction regions with
  | nil => rfl
  | cons region more ih =>
    rw [List.mapM_cons, List.mapM_cons,
      ofRegion_recased fits recased (top region List.mem_cons_self),
      ih fun other member => top other (List.mem_cons_of_mem _ member)]

end Recased

/-- Changing the case of letters in the names of tags outside scripts and styles changes in the
table of a text below the limit of offsets only the case of tag names in warnings. There is a table
when the names of scripts lie inside their scripts. -/
theorem build_recased (reader : Script.Reader) (options : Options) {text text' : List Char}
    (fits : width text ≤ Offset.limit)
    (recased : Recased (InTagName options text) 0 text text') :
    (build reader options text').map caseless = (build reader options text).map caseless ∧
      (ScriptsStayInside reader options text →
        ∃ table, build reader options text = .ok table) := by
  constructor
  · have kept : ∀ tag ∈ Region.tags options.rawTags (.atStart text),
        tag.attributeSpan.slice? text' = tag.attributeSpan.slice? text := by
      intro tag read
      apply recased.slice?_eq
      intro place after before free
      obtain ⟨named, known, -, head⟩ := (inTagName_iff fits).1 free
      exact Region.attributeSpan_apart read known after before head
    have parsed := Region.parse_caseless fits (Region.tags_caseless recased.asciiFold_eq kept)
      recased.width_eq
    have top : ∀ region ∈ (Region.tree options.rawTags text).children,
        region ∈ (Region.tree options.rawTags text).children := fun _ member => member
    rw [build_caseless, build_caseless, parsed, Region.parse_eq_ok options.rawTags fits]
    change ((Region.tree options.rawTags text).caseless.children.mapM
        (ofRegion reader options text')).map concat =
      ((Region.tree options.rawTags text).caseless.children.mapM
        (ofRegion reader options text)).map concat
    rw [Region.children_caseless, ofRegions_caseless, ofRegions_caseless,
      ofRegions_recased fits recased top]
  · intro scripts
    exact ⟨_, (build_gives reader options fits).eq_ok ((below_contents scripts).mono fits)⟩

/-- So it is where the two tags of an element change apart from each other and the last region,
whose name a warning mentions, has no end. -/
theorem build_recased_unclosed :
    let text := ("<template><p ref='A'></P></template><script setup>let B</script>" ++
      "<style>.C</STYLE/>").toList
    let text' := ("<TEMPLATE><P ref='A'></p></Template><Script setup>let B</sCRIPT>" ++
      "<STYLE>.C</STYLE/>").toList
    width text ≤ Offset.limit ∧ Recased (InTagName {} text) 0 text text' ∧
      ScriptsStayInside Script.read {} text ∧
      (build Script.read {} text').map caseless = (build Script.read {} text).map caseless ∧
      ∃ table, build Script.read {} text = .ok table := by
  intro text text'
  have fits : width text ≤ Offset.limit := by decide
  have recased : Recased (InTagName {} text) 0 text text' := by
    have free : InTagName {} text = _ := funext fun _ => propext (inTagName_iff fits)
    rw [free]
    decide +kernel
  have scripts : ScriptsStayInside Script.read {} text := by decide +kernel
  obtain ⟨same, exists_table⟩ := build_recased Script.read {} fits recased
  exact ⟨fits, recased, scripts, same, exists_table scripts⟩

section TooLong

/-- A template whose `ref` has a tag with a letter for its name in it, more letters than fit, and a
tag that ends, but for the bits that are cut off, where the value of the `ref` starts. -/
def quotedText (c : Char) : List Char :=
  "<template><p ref=\"<".toList ++ c :: "><!--\">".toList ++
    (letters 4294967284 ++ "<q>".toList)

/-- The tags that are found in `quotedText`, at the offsets that are kept for them. -/
def quotedTags (c : Char) : List Tag :=
  [⟨.opening, "template", ⟨0, 10⟩, ⟨9, 9⟩, []⟩,
    ⟨.opening, "p", ⟨10, 27⟩, ⟨12, 26⟩, " ref=\"<".toList ++ c :: "><!--\"".toList⟩,
    ⟨.opening, "q", ⟨15, 18⟩, ⟨17, 17⟩, []⟩,
    ⟨.opening, String.ofList [c], ⟨18, 21⟩, ⟨20, 20⟩, []⟩]

variable {c : Char}

/-- The tag in the value of the `ref` is found after the last tag. -/
theorem run_quotedText (named : c = 'B' ∨ c = 'b') :
    ∃ builder, Region.Run Region.defaultRawTags (quotedText c) (quotedTags c) builder
      ⟨quotedText c, ⟨21, "<!--\">".toList ++ (letters 4294967284 ++ "<q>".toList)⟩⟩ := by
  let rest := letters 4294967284 ++ "<q>".toList
  have template : Cursor.nextTag? ⟨0, quotedText c⟩ = some
      (⟨.opening, "template", ⟨0, 10⟩, ⟨9, 9⟩, []⟩,
        ⟨10, "<p ref=\"<".toList ++ c :: ("><!--\">".toList ++ rest)⟩) :=
    Cursor.nextTag?_of_openingTag? (by decide) rfl
  have outer : Cursor.nextTag? ⟨10, "<p ref=\"<".toList ++ c :: ("><!--\">".toList ++ rest)⟩ = some
      (⟨.opening, "p", ⟨10, 27⟩, ⟨12, 26⟩, " ref=\"<".toList ++ c :: "><!--\"".toList⟩,
        ⟨27, rest⟩) := by
    rcases named with rfl | rfl
    · exact Cursor.nextTag?_of_openingTag? (by decide) rfl
    · exact Cursor.nextTag?_of_openingTag? (by decide) rfl
  have last : Cursor.nextTag? ⟨27, rest⟩ = some
      (⟨.opening, "q", ⟨4294967311, 4294967314⟩, ⟨4294967313, 4294967313⟩, []⟩,
        ⟨4294967314, []⟩) := by
    rw [Cursor.nextTag?_letters]
    exact Cursor.nextTag?_of_openingTag? (by decide) rfl
  have back : (⟨quotedText c, ⟨27, rest⟩⟩ : Scanner).nextTag = .ok
      (some ⟨.opening, "q", ⟨15, 18⟩, ⟨17, 17⟩, []⟩,
        ⟨quotedText c, ⟨18, '<' :: c :: ("><!--\">".toList ++ rest)⟩⟩) := by
    rcases named with rfl | rfl
    · exact Scanner.nextTag_of_record last rfl rfl
    · exact Scanner.nextTag_of_record last rfl rfl
  have quoted : Cursor.nextTag? ⟨18, '<' :: c :: ("><!--\">".toList ++ rest)⟩ = some
      (⟨.opening, String.ofList [c], ⟨18, 21⟩, ⟨20, 20⟩, []⟩, ⟨21, "<!--\">".toList ++ rest⟩) := by
    rcases named with rfl | rfl
    · exact Cursor.nextTag?_of_openingTag? (by decide) rfl
    · exact Cursor.nextTag?_of_openingTag? (by decide) rfl
  have begun : Region.Run Region.defaultRawTags (quotedText c) [] .start _ := .start
  rcases named with rfl | rfl
  all_goals
    have first := begun.advance_below template (by decide) (by decide +kernel)
    have second := first.advance_below outer (by decide) (by decide +kernel)
    have third := second.advance back (by decide) (Region.resume_plain (by decide +kernel) _)
    exact ⟨_, third.advance_below quoted (by decide) (by decide +kernel)⟩

/-- All elements of `quotedText` are in one another. -/
theorem parse_quotedText (named : c = 'B' ∨ c = 'b') :
    Region.parse Region.defaultRawTags (quotedText c) =
      .ok (((quotedTags c).foldl Builder.grow .start).finish 18) := by
  have size : Offset.cut (width (quotedText c)) = 18 := by
    rcases named with rfl | rfl
    · exact (congrArg Offset.cut (width_around _ _ _)).trans (by decide +kernel)
    · exact (congrArg Offset.cut (width_around _ _ _)).trans (by decide +kernel)
  obtain ⟨builder, run⟩ := run_quotedText named
  have plain : '-' ∉ "\">".toList ++ (letters 4294967284 ++ "<q>".toList) :=
    not_mem_around (by decide) (by decide) (by decide) _
  have none := Cursor.nextTag?_unended (pastComment_plain plain 25)
  rw [run.parse_eq (Scanner.nextTag_of_none none), size]

/-- The tag in the value of the `ref` is part of the name that the `ref` gives. -/
theorem build_quotedText (reader : Script.Reader) (named : c = 'B' ∨ c = 'b') :
    ∃ warnings, build reader {} (quotedText c) = .ok
      ⟨[⟨String.ofList ('<' :: c :: "><!--".toList), .ref, 18, none⟩], warnings⟩ := by
  have parsed := parse_quotedText named
  rcases named with rfl | rfl
  all_goals
    exact ⟨_, build_of_template reader parsed
      (List.getLast?_eq_some_getLast (List.ne_nil_of_length_pos (by decide +kernel)))
      (by decide +kernel) (by decide +kernel) (by decide +kernel) (by decide +kernel)⟩

end TooLong

/-- In a text that is too long a tag may be found in the value of an attribute, and the case of its
name is the case of a name that the attribute gives. -/
theorem build_recased_tooLong :
    Recased (InTagName {} (quotedText 'B')) 0 (quotedText 'B') (quotedText 'b') ∧
      (build Script.read {} (quotedText 'b')).map caseless ≠
        (build Script.read {} (quotedText 'B')).map caseless := by
  constructor
  · have split (c : Char) : quotedText c = "<template><p ref=\"<".toList ++
        c :: ("><!--\">".toList ++ (letters 4294967284 ++ "<q>".toList)) :=
      List.append_assoc _ _ _
    have free : InTagName {} (quotedText 'B') 19 := by
      obtain ⟨builder, run⟩ := run_quotedText (.inl rfl)
      refine ⟨_, builder, _, run, _, List.mem_of_getLast? rfl, ?_, by decide, by decide⟩
      intro document parsed
      cases (parse_quotedText (.inl rfl)).symm.trans parsed
      decide +kernel
    exact Recased.change (split 'B') (split 'b') free (by decide)
  · intro same
    obtain ⟨warnings, upper⟩ := build_quotedText Script.read (.inl rfl)
    obtain ⟨warnings', lower⟩ := build_quotedText Script.read (.inr rfl)
    rw [upper, lower] at same
    have bindings := congrArg Table.bindings (Except.ok.inj same)
    have name : String.ofList ('<' :: 'b' :: "><!--".toList) =
        String.ofList ('<' :: 'B' :: "><!--".toList) :=
      congrArg Binding.name (List.head_eq_of_cons_eq bindings)
    revert name
    decide +kernel

end Table

end SfcIndex
