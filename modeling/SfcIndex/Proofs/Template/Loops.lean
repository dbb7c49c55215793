import Mathlib.Data.List.Forall2
import SfcIndex.Proofs.Template.Declares
import SfcIndex.Proofs.Text.Pattern

/-! # Loops with a keyword

`LoopParts` divides the value of a `v-for` attribute at its first `in` or `of` between blanks. What
stands in front of the keyword, without the blanks around it, are the aliases of the loop
(`Template.LoopParts.loopAliases_eq`). The pattern `loopPattern` divides the value at the same
places (`Template.LoopParts.firstMatch?_loopPattern`). The attribute declares the identifiers among
the aliases and nothing else (`Template.attributeBindings_loop`).
-/

namespace SfcIndex.Template

open Text Markup

/-- The word `in` or `of` stands at a byte of a value, with a blank on either side. -/
def KeywordAt (value : List Char) (start : Nat) : Prop :=
  ∃ before left word right after, value = before ++ left :: (word ++ right :: after) ∧
    width before + left.utf8Size = start ∧ (word = "in".toList ∨ word = "of".toList) ∧
    Unicode.isBlank left = true ∧ Unicode.isBlank right = true

/-- A keyword stands behind a blank that is found by its number. -/
theorem keywordAt_iff {value : List Char} {start : Nat} :
    KeywordAt value start ↔
      ∃ count < value.length, value[count]?.any Unicode.isBlank = true ∧
        startsWithKeyword (value.drop (count + 1)) = true ∧
        width (value.take (count + 1)) = start := by
  constructor
  · intro holds
    obtain ⟨before, left, word, right, after, whole, place, known, isBlank, ends⟩ := holds
    refine ⟨before.length, ?_, ?_,
      startsWithKeyword_iff.2 ⟨word, right, after, ?_, known, ends⟩, ?_⟩
    · rw [whole]
      simp
    · rw [whole]
      simpa using isBlank
    · rw [whole]
      simp
    · rw [whole, ← place]
      simp [List.take_append, List.take_of_length_le]
  · intro holds
    obtain ⟨count, small, isBlank, starts, place⟩ := holds
    obtain ⟨word, right, after, behind, known, ends⟩ := startsWithKeyword_iff.1 starts
    refine ⟨value.take count, value[count], word, right, after, ?_, ?_, known, ?_, ends⟩
    · rw [← behind, ← List.drop_eq_getElem_cons, List.take_append_drop]
    · rw [← place, List.take_succ_eq_append_getElem small, width_append, width_cons, width_nil]
      rfl
    · rw [List.getElem?_eq_getElem small] at isBlank
      exact isBlank

/-- The parts of the value of a loop: blanks, the aliases without blanks around them, blanks, a
keyword with a blank behind it, and the rest. No keyword that begins after the first character of
the aliases comes earlier. -/
structure LoopParts (value lead aliases gap keyword : List Char) (blank : Char)
    (rest : List Char) : Prop where
  whole : value = lead ++ (aliases ++ (gap ++ (keyword ++ blank :: rest)))
  leads : ∀ c ∈ lead, Unicode.isBlank c = true
  named : aliases ≠ []
  begins : ∀ c ∈ aliases.head?, Unicode.isBlank c = false
  finishes : ∀ c ∈ aliases.getLast?, Unicode.isBlank c = false
  parted : gap ≠ []
  gaps : ∀ c ∈ gap, Unicode.isBlank c = true
  known : keyword = "in".toList ∨ keyword = "of".toList
  ends : Unicode.isBlank blank = true
  first : ∀ start, KeywordAt value start → width lead < start →
    width lead + width aliases + width gap ≤ start

namespace LoopParts

variable {value lead aliases gap keyword rest : List Char} {blank : Char}

/-- The keyword of a loop comes after its aliases. -/
theorem keywordAfter (parts : LoopParts value lead aliases gap keyword blank rest) :
    KeywordAfter (aliases ++ (gap ++ (keyword ++ blank :: rest))) aliases :=
  ⟨gap, keyword, blank, rest, rfl, parts.parted, parts.gaps, parts.known, parts.ends⟩

/-- The aliases of a loop do not start with a blank. -/
theorem solid (parts : LoopParts value lead aliases gap keyword blank rest) :
    ∀ c ∈ (aliases ++ (gap ++ (keyword ++ blank :: rest))).head?, Unicode.isBlank c = false := by
  rw [List.head?_append_of_ne_nil _ parts.named]
  exact parts.begins

/-- No keyword comes before the one behind the aliases. Blanks in front of an earlier one would
reach over the end of the aliases, which is no blank. -/
theorem length_le (parts : LoopParts value lead aliases gap keyword blank rest)
    {shorter : List Char}
    (found : KeywordAfter (aliases ++ (gap ++ (keyword ++ blank :: rest))) shorter) :
    aliases.length ≤ shorter.length := by
  obtain ⟨blanks, word, right, after, split, some, isBlank, known, ends⟩ := found
  obtain ⟨front, left, parted⟩ := (List.eq_nil_or_concat blanks).resolve_left some
  rw [List.concat_eq_append] at parted
  have stands : KeywordAt value (width lead + width shorter + width blanks) := by
    refine ⟨lead ++ (shorter ++ front), left, word, right, after, ?_, ?_, known, ?_, ends⟩
    · rw [parts.whole, split, parted]
      simp
    · rw [parted]
      simp only [width_append, width_cons, width_nil]
      omega
    · exact isBlank left (by rw [parted]; simp)
  have positive : 0 < width blanks := by
    have := left.utf8Size_pos
    rw [parted, width_append, width_cons]
    omega
  have later := parts.first _ stands (by omega)
  by_contra less
  -- `more` is the end of the aliases that the earlier keyword and its blanks would cut off.
  obtain ⟨more, rfl, behind⟩ : ∃ more, aliases = shorter ++ more ∧
      blanks ++ (word ++ right :: after) = more ++ (gap ++ (keyword ++ blank :: rest)) := by
    apply exists_of_append_eq split
    intro more same
    rw [same, List.length_append] at less
    omega
  have nonempty : more ≠ [] := by
    intro none
    rw [none, List.append_nil] at less
    exact less (Nat.le_refl _)
  rw [← List.append_assoc more] at behind
  obtain ⟨tail, reaches, -⟩ := exists_of_width_le behind (by
    rw [width_append] at later ⊢
    omega)
  have last := parts.finishes (more.getLast nonempty) (by
    rw [List.getLast?_append_of_ne_nil _ nonempty]
    exact List.getLast?_eq_some_getLast nonempty)
  have inside : more.getLast nonempty ∈ blanks := by
    rw [reaches]
    exact List.mem_append_left _ (List.mem_append_left _ (List.getLast_mem nonempty))
  rw [isBlank _ inside] at last
  cases last

/-- The aliases that are read are those of the loop. -/
theorem loopAliases_eq (parts : LoopParts value lead aliases gap keyword blank rest) :
    loopAliases value = (width lead, aliases) :=
  Template.loopAliases_eq (.beforeKeyword parts.whole parts.leads parts.solid parts.keywordAfter
    fun _ => parts.length_le)

end LoopParts

/-- A keyword between blanks. -/
def betweenBlanks : List Piece :=
  [.one Unicode.isBlank, .many Unicode.isBlank, .word ["in".toList, "of".toList],
    .one Unicode.isBlank]

/-- A loop: blanks, as little as possible before a keyword between blanks, and the keyword. -/
def loopPattern : List Piece := .many Unicode.isBlank :: .few (fun _ => true) :: betweenBlanks

/-- The pattern matches where a text starts with blanks and a keyword. -/
theorem matchesAs_betweenBlanks_iff {text : List Char} :
    (∃ parts rest, MatchesAs betweenBlanks text parts rest) ↔ KeywordAfter text [] := by
  constructor
  · intro holds
    obtain ⟨parts, rest, whole, all⟩ := holds
    simp only [betweenBlanks, List.forall₂_cons_left_iff, List.forall₂_nil_left_iff,
      Piece.Accepts] at all
    obtain ⟨_, _, ⟨first, rfl, starts⟩, ⟨more, _, blanks, ⟨word, _, known, ⟨_, _,
      ⟨right, rfl, ends⟩, rfl, rfl⟩, rfl⟩, rfl⟩, rfl⟩ := all
    refine ⟨first :: more, word, right, rest, ?_, List.cons_ne_nil _ _, ?_, ?_, ends⟩
    · simpa using whole
    · exact List.forall_mem_cons.2 ⟨starts, blanks⟩
    · simpa using known
  · intro holds
    obtain ⟨blanks, word, right, rest, whole, nonempty, isBlank, known, ends⟩ := holds
    obtain ⟨first, more, rfl⟩ := List.exists_cons_of_ne_nil nonempty
    obtain ⟨starts, others⟩ := List.forall_mem_cons.1 isBlank
    refine ⟨[[first], more, word, [right]], rest, ?_, ?_⟩
    · rw [whole]
      simp
    · refine .cons ⟨first, rfl, starts⟩ (.cons others (.cons ?_ (.cons ⟨right, rfl, ends⟩ .nil)))
      simpa [Piece.Accepts] using known

/-- A match of the pattern divides the value of a loop in the same way. -/
theorem LoopParts.firstMatch?_loopPattern {value lead aliases gap keyword rest : List Char}
    {blank : Char} (parts : LoopParts value lead aliases gap keyword blank rest) :
    ∃ taken left, firstMatch? loopPattern value = some (lead :: aliases :: taken, left) := by
  have ends : KeywordAfter (gap ++ (keyword ++ blank :: rest)) [] :=
    ⟨gap, keyword, blank, rest, rfl, parts.parted, parts.gaps, parts.known, parts.ends⟩
  obtain ⟨_, _, known⟩ := matchesAs_betweenBlanks_iff.2 ends
  obtain ⟨⟨taken, left⟩, found⟩ := Option.isSome_iff_exists.1 (firstMatch?_isSome known)
  refine ⟨taken, left, ?_⟩
  rw [parts.whole]
  apply firstMatch?_many parts.leads parts.solid
  refine firstMatch?_few (fun _ _ => rfl) ?_ found
  intro front tail same nonempty
  rw [firstMatch?_eq_none_iff]
  intro taken left known
  have early := (matchesAs_betweenBlanks_iff.1 ⟨taken, left, known⟩).append front
  rw [List.append_nil, ← List.append_assoc, ← same] at early
  have shorter := parts.length_le early
  rw [same, List.length_append] at shorter
  exact nonempty (List.length_eq_zero_iff.1 (by omega))

section Names

variable {rawTags : List String} {text : List Char} {document template element : Region}
  {declaration : Attribute} {value : AttributeValue}

/-- Checked collecting gives the names of any part of a tree that could be read. -/
theorem bindings_eq_ok_of_parse (parsed : Region.parse rawTags text = .ok document)
    (inside : template ∈ document.descendants) : bindings template = .ok (names template) := by
  apply bindings_eq_ok_of_values
  intro element below declaration carries value is
  exact Region.value_le_limit parsed (Region.mem_descendants_trans inside below) carries is

/-- The names of an attribute stand together among the names of a template. -/
theorem exists_names_eq_append (below : element ∈ template.descendants)
    (carries : declaration ∈ element.attributes) :
    ∃ before after,
      names template = before ++ attributeNames element.span declaration ++ after := by
  obtain ⟨first, second, elements⟩ := List.append_of_mem below
  obtain ⟨earlier, later, attributes⟩ := List.append_of_mem carries
  refine ⟨first.flatMap elementNames ++ earlier.flatMap (attributeNames element.span),
    later.flatMap (attributeNames element.span) ++ second.flatMap elementNames, ?_⟩
  rw [names, elements, List.flatMap_append, List.flatMap_cons, elementNames, attributes,
    List.flatMap_append, List.flatMap_cons]
  simp only [List.append_assoc]

/-- A loop with a keyword declares the identifiers among its aliases, one for each place where one
stands, and nothing else. The pattern `loopPattern` finds the same aliases. -/
theorem attributeBindings_loop {lead aliases gap keyword rest : List Char} {blank : Char}
    (parsed : Region.parse rawTags text = .ok document)
    (inside : template ∈ document.descendants) (below : element ∈ template.descendants)
    (carries : declaration ∈ element.attributes) (key : declaration.key = "v-for")
    (is : declaration.value = some value)
    (parts : LoopParts value.text.toList lead aliases gap keyword blank rest) :
    ∃ declared, attributeBindings element.span declaration = .ok declared ∧
      (∀ binding, binding ∈ declared ↔
        ∃ start name, IdentifierAt aliases start name ∧
          binding = ⟨String.ofList name, .vForScope, value.span.start + width lead + start,
            some element.span⟩) ∧
      declared.Pairwise (fun first second => first.position < second.position) ∧
      (∀ binding ∈ declared, StandsAt text binding.position binding.name.toList) ∧
      (∃ before after, bindings template = .ok (before ++ declared ++ after)) ∧
      ∃ taken left,
        firstMatch? loopPattern value.text.toList = some (lead :: aliases :: taken, left) := by
  have known := Region.mem_descendants_trans inside below
  have collects : attributeBindings element.span declaration =
      .ok (attributeNames element.span declaration) := by
    apply attributeBindings_eq_ok
    intro other is'
    exact Region.value_le_limit parsed known carries is'
  have loops : attributeNames element.span declaration =
      scopedNames aliases (value.span.start + width lead) .vForScope element.span := by
    rw [attributeNames_of_loop key is, parts.loopAliases_eq]
  refine ⟨attributeNames element.span declaration, collects, ?_, attributeNames_pairwise _ _, ?_,
    ?_, parts.firstMatch?_loopPattern⟩
  · intro binding
    rw [loops, mem_scopedNames_iff]
    constructor
    · intro holds
      obtain ⟨start, stands, same⟩ := holds
      refine ⟨start, binding.name.toList, stands, ?_⟩
      rw [String.ofList_toList]
      exact same
    · intro holds
      obtain ⟨start, name, stands, same⟩ := holds
      rw [same]
      dsimp only
      rw [String.toList_ofList]
      exact ⟨start, stands, rfl⟩
  · intro binding member
    obtain ⟨value', start, is', -, position_eq, stands⟩ := standsAt_of_mem member
    rw [position_eq]
    exact (Region.standsAt_of_parse parsed known carries is').trans stands
  · obtain ⟨before, after, together⟩ := exists_names_eq_append below carries
    refine ⟨before, after, ?_⟩
    rw [bindings_eq_ok_of_parse parsed inside, together]

/-- So it is for a loop whose aliases start with the word `in`, hold a letter and a number that are
no identifiers, and stand between blanks of several bytes. Its element is never closed. -/
theorem attributeBindings_loop_wide :
    let text := "<template><li v-for='\u3000in é,$i 2x\u2003of in b'></template>".toList
    let value : AttributeValue := ⟨"\u3000in é,$i 2x\u2003of in b", ⟨21, 45⟩⟩
    let declaration : Attribute := ⟨"v-for", ⟨14, 19⟩, some value⟩
    LoopParts value.text.toList "\u3000".toList "in é,$i 2x".toList "\u2003".toList "of".toList ' '
        "in b".toList ∧
      ∃ document template element, Region.parse Region.defaultRawTags text = .ok document ∧
        template ∈ document.descendants ∧ template.name = "template" ∧
        element ∈ template.descendants ∧ declaration ∈ element.attributes ∧
        element.span = ⟨10, 47⟩ ∧
        ∃ before declared after, bindings template = .ok (before ++ declared ++ after) ∧
          attributeBindings element.span declaration = .ok declared ∧
          declared =
            [⟨"in", .vForScope, 24, some ⟨10, 47⟩⟩, ⟨"$i", .vForScope, 30, some ⟨10, 47⟩⟩] := by
  intro text value declaration
  have parts : LoopParts value.text.toList "\u3000".toList "in é,$i 2x".toList "\u2003".toList
      "of".toList ' ' "in b".toList := by
    refine ⟨by decide +kernel, ?_, by decide +kernel, ?_, ?_, by decide +kernel, ?_, .inr rfl,
      by decide +kernel, ?_⟩
    · exact List.all_eq_true.1 (by decide +kernel)
    · intro c is
      cases is
      rfl
    · intro c is
      cases is
      rfl
    · exact List.all_eq_true.1 (by decide +kernel)
    · intro start stands
      obtain ⟨count, small, isBlank, starts, rfl⟩ := keywordAt_iff.1 stands
      clear stands
      revert count
      decide +kernel
  have shape : (Region.tree Region.defaultRawTags text).children.map (fun region =>
      (region.name, region.descendants.map fun element => (element.attributes, element.span))) =
        [("template", [([], ⟨0, 58⟩), ([declaration], ⟨10, 47⟩)])] := by
    decide +kernel
  have fits : width text ≤ Offset.limit := by decide +kernel
  have parsed := Region.parse_eq_ok Region.defaultRawTags fits
  have computed : (attributeBindings ⟨10, 47⟩ declaration).toOption =
      some [⟨"in", .vForScope, 24, some ⟨10, 47⟩⟩, ⟨"$i", .vForScope, 30, some ⟨10, 47⟩⟩] := by
    decide +kernel
  obtain ⟨template, top, described⟩ := List.map_eq_singleton_iff.1 shape
  obtain ⟨named, elements⟩ := Prod.mk.inj described
  have inside : template ∈ (Region.tree Region.defaultRawTags text).descendants := by
    rw [Region.descendants_eq, top, List.flatMap_singleton, Region.descendants_eq template]
    exact List.mem_cons_of_mem _ List.mem_cons_self
  have listed : ([declaration], (⟨10, 47⟩ : Span)) ∈
      template.descendants.map fun element => (element.attributes, element.span) := by
    rw [elements]
    exact List.mem_cons_of_mem _ List.mem_cons_self
  obtain ⟨element, below, same⟩ := List.mem_map.1 listed
  obtain ⟨attributes, span⟩ := Prod.mk.inj same
  have carries : declaration ∈ element.attributes := by
    rw [attributes]
    exact List.mem_cons_self
  obtain ⟨declared, collected, -, -, -, ⟨before, after, together⟩, -⟩ :=
    attributeBindings_loop parsed inside below carries rfl rfl parts
  refine ⟨parts, _, template, element, parsed, inside, named, below, carries, span, before,
    declared, after, together, collected, ?_⟩
  rw [span] at collected
  rw [collected] at computed
  exact Option.some.inj computed

end Names

end SfcIndex.Template
