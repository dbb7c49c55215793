import Mathlib.Data.List.Basic
import SfcIndex.Proofs.Markup.Reach
import SfcIndex.Proofs.Markup.Values
import SfcIndex.Proofs.Table.Template
import SfcIndex.Proofs.Template.Aliases
import SfcIndex.Table

/-! # What the attributes of an element declare

`Declares` says which variables an attribute declares and where. The names of an attribute that have
a scope are these (`Template.cases_of_mem`, `Template.Declares.mem_attributeNames`). Every name of a
template stands in the text at its position, inside the tag of the element that declares it
(`Template.standsIn_of_mem`), and the names follow one another (`Template.names_pairwise`).
-/

namespace SfcIndex.Template

open Text Markup

/-- The keys of the attributes whose values declare slot variables. -/
inductive SlotKey : String → Prop
  | slotScope : SlotKey "slot-scope"
  | shorthand {slot : String} (named : slot ≠ "") : SlotKey ("#" ++ slot)
  | directive : SlotKey "v-slot"
  | directiveFor {slot : String} (named : slot ≠ "")
      (word : ∀ c ∈ slot.toList, Unicode.isWordLike c = true ∨ c = '-') :
      SlotKey ("v-slot:" ++ slot)

/-- The attribute declares a variable of its element at a location. -/
inductive Declares (declaration : Attribute) : Location → Prop
  | loop {value : AttributeValue} {skipped start : Nat} {aliases : List Char} {name : String}
      (key : declaration.key = "v-for") (is : declaration.value = some value)
      (head : LoopAliases value.text.toList skipped aliases)
      (stands : IdentifierAt aliases start name.toList) :
      Declares declaration ⟨name, .vForScope, value.span.start + skipped + start⟩
  | slot {value : AttributeValue} {start : Nat} {name : String}
      (key : SlotKey declaration.key) (is : declaration.value = some value)
      (stands : IdentifierAt value.text.toList start name.toList) :
      Declares declaration ⟨name, .slotScope, value.span.start + start⟩

/-- A slot directive is `v-slot`, alone or with the name of a slot behind a colon. -/
theorem isSlotDirective_iff {key : List Char} :
    isSlotDirective key = true ↔
      key = "v-slot".toList ∨ ∃ slot, key = "v-slot:".toList ++ slot ∧ slot ≠ [] ∧
        ∀ c ∈ slot, Unicode.isWordLike c = true ∨ c = '-' := by
  unfold isSlotDirective
  constructor
  · intro holds
    split at holds
    next alone =>
      left
      rw [← List.isPrefixOf?_eq_some_iff_append_eq.1 alone, List.append_nil]
    next slot named =>
      right
      rw [Bool.and_eq_true, Bool.not_eq_true', List.isEmpty_eq_false_iff, List.all_eq_true] at holds
      refine ⟨slot, (List.isPrefixOf?_eq_some_iff_append_eq.1 named).symm, holds.1, ?_⟩
      intro c member
      simpa using holds.2 c member
    next => cases holds
  · rintro (rfl | ⟨slot, rfl, some, word⟩)
    · rfl
    · have rest : "v-slot".toList.isPrefixOf? ("v-slot:".toList ++ slot) = .some (':' :: slot) :=
        List.isPrefixOf?_eq_some_iff_append_eq.2 rfl
      have named : (!slot.isEmpty) = true := by
        rw [Bool.not_eq_true', List.isEmpty_eq_false_iff]
        exact some
      rw [rest]
      refine Bool.and_eq_true_iff.2 ⟨named, List.all_eq_true.2 ?_⟩
      intro c member
      simpa using word c member

/-- The keys that declare slots are those of the specification. -/
theorem isSlotKey_iff {key : String} : isSlotKey key = true ↔ SlotKey key := by
  have spelled : ∀ (lead : String) (slot : List Char), key.toList = lead.toList ++ slot →
      key = lead ++ String.ofList slot := by
    intro lead slot whole
    apply String.toList_inj.1
    rw [whole, String.toList_append, String.toList_ofList]
  have named : ∀ {slot : List Char}, slot ≠ [] → String.ofList slot ≠ "" := by
    intro slot some none
    apply some
    rw [← String.toList_ofList (l := slot), none]
    rfl
  simp only [isSlotKey, Bool.or_eq_true, Bool.and_eq_true, decide_eq_true_iff,
    isSlotDirective_iff]
  constructor
  · rintro ((rfl | ⟨size, head⟩) | whole | ⟨slot, whole, some, word⟩)
    · exact .slotScope
    · obtain ⟨slot, whole⟩ := List.head?_eq_some_iff.1 head
      rw [spelled "#" slot whole] at size ⊢
      apply SlotKey.shorthand
      intro none
      rw [none] at size
      exact absurd size (by decide)
    · rw [String.toList_inj.1 whole]
      exact .directive
    · rw [spelled _ slot whole]
      refine .directiveFor (named some) ?_
      rwa [String.toList_ofList]
  · intro key
    cases key with
    | slotScope => exact .inl (.inl rfl)
    | @shorthand slot named =>
      refine .inl (.inr ⟨?_, ?_⟩)
      · have hash : "#".utf8ByteSize = 1 := rfl
        have size : slot.utf8ByteSize ≠ 0 :=
          fun zero => named (String.utf8ByteSize_eq_zero_iff.1 zero)
        rw [String.utf8ByteSize_append]
        omega
      · rw [String.toList_append]
        rfl
    | directive => exact .inr (.inl rfl)
    | @directiveFor slot named word =>
      refine .inr (.inr ⟨slot.toList, String.toList_append, ?_, word⟩)
      exact fun none => named (String.toList_eq_nil_iff.1 none)

section Attribute

variable {scope : Span} {declaration : Attribute} {binding : Binding}

/-- The names of a text are its identifiers, with the given category and scope. -/
theorem mem_scopedNames_iff {text : List Char} {base : Nat} {category : Category} :
    binding ∈ scopedNames text base category scope ↔
      ∃ start, IdentifierAt text start binding.name.toList ∧
        binding = ⟨binding.name, category, base + start, some scope⟩ := by
  rw [scopedNames, List.mem_map]
  constructor
  · rintro ⟨place, found, rfl⟩
    refine ⟨place.1, ?_, rfl⟩
    rw [String.toList_ofList]
    exact mem_identifiers_iff.1 found
  · rintro ⟨start, stands, same⟩
    refine ⟨(start, binding.name.toList), mem_identifiers_iff.2 stands, ?_⟩
    rw [same, String.ofList_toList]

/-- The names of a text are found from the left to the right. -/
theorem scopedNames_pairwise (text : List Char) (base : Nat) (category : Category) (scope : Span) :
    (scopedNames text base category scope).Pairwise fun first second =>
      first.position < second.position := by
  rw [scopedNames, List.pairwise_map]
  apply (identifiers_pairwise text).imp
  intro first second before
  dsimp only
  omega

/-- A loop declares the identifiers in its aliases. -/
theorem attributeNames_of_loop {value : AttributeValue} (key : declaration.key = "v-for")
    (is : declaration.value = some value) :
    attributeNames scope declaration =
      scopedNames (loopAliases value.text.toList).2
        (value.span.start + (loopAliases value.text.toList).1) .vForScope scope := by
  rw [attributeNames, is, key]
  rfl

/-- A slot declares the identifiers in its value. -/
theorem attributeNames_of_slot {value : AttributeValue} (key : SlotKey declaration.key)
    (is : declaration.value = some value) :
    attributeNames scope declaration =
      scopedNames value.text.toList value.span.start .slotScope scope := by
  have slot := isSlotKey_iff.2 key
  have not_ref : declaration.key ≠ "ref" := by
    intro same
    rw [same] at slot
    exact absurd slot (by decide)
  have not_loop : declaration.key ≠ "v-for" := by
    intro same
    rw [same] at slot
    exact absurd slot (by decide)
  rw [attributeNames, is]
  dsimp only
  rw [if_neg not_ref, if_neg not_loop, if_pos slot]

/-- What the names of an attribute can be. -/
theorem attributeNames_cases (scope : Span) (declaration : Attribute) :
    attributeNames scope declaration = [] ∨
      ∃ value, declaration.value = some value ∧
        ((value.text ≠ "" ∧ attributeNames scope declaration =
            [{ name := value.text, category := .ref, position := value.span.start }]) ∨
          declaration.key = "v-for" ∨ SlotKey declaration.key) := by
  cases is : declaration.value with
  | none =>
    left
    rw [attributeNames, is]
  | some value =>
    by_cases ref : declaration.key = "ref"
    · by_cases empty : value.text.isEmpty
      · left
        rw [attributeNames, is]
        dsimp only
        rw [if_pos ref, if_pos empty]
      · refine .inr ⟨value, rfl, .inl ⟨?_, ?_⟩⟩
        · rintro none
          rw [none] at empty
          exact empty rfl
        · rw [attributeNames, is]
          dsimp only
          rw [if_pos ref, if_neg empty]
    · by_cases loop : declaration.key = "v-for"
      · exact .inr ⟨value, rfl, .inr (.inl loop)⟩
      · by_cases slot : isSlotKey declaration.key
        · exact .inr ⟨value, rfl, .inr (.inr (isSlotKey_iff.1 slot))⟩
        · left
          rw [attributeNames, is]
          dsimp only
          rw [if_neg ref, if_neg loop, if_neg slot]

/-- The names of an attribute are found from the left to the right. -/
theorem attributeNames_pairwise (scope : Span) (declaration : Attribute) :
    (attributeNames scope declaration).Pairwise fun first second =>
      first.position < second.position := by
  rcases attributeNames_cases scope declaration with none | ⟨value, is, ⟨-, single⟩ | loop | slot⟩
  · rw [none]
    exact .nil
  · rw [single]
    exact List.pairwise_singleton _ _
  · rw [attributeNames_of_loop loop is]
    exact scopedNames_pairwise _ _ _ _
  · rw [attributeNames_of_slot slot is]
    exact scopedNames_pairwise _ _ _ _

/-- A name of an attribute is a name for the whole file, which the value spells, or a variable that
the attribute declares. -/
theorem cases_of_mem (member : binding ∈ attributeNames scope declaration) :
    (∃ value, declaration.value = some value ∧ value.text ≠ "" ∧
        binding = { name := value.text, category := .ref, position := value.span.start }) ∨
      (binding.category.isScoped = true ∧ binding.scope = some scope ∧
        Declares declaration binding.location) := by
  rcases attributeNames_cases scope declaration with
    none | ⟨value, is, ⟨some, single⟩ | loop | slot⟩
  · rw [none] at member
    cases member
  · rw [single] at member
    exact .inl ⟨value, is, some, List.mem_singleton.1 member⟩
  · rw [attributeNames_of_loop loop is] at member
    obtain ⟨start, stands, same⟩ := mem_scopedNames_iff.1 member
    have some : (loopAliases value.text.toList).2 ≠ [] := by
      intro none
      rw [none] at stands
      exact WordRun.not_nil stands.1
    rw [same]
    exact .inr ⟨rfl, rfl, .loop loop is (loopAliases_spec some) stands⟩
  · rw [attributeNames_of_slot slot is] at member
    obtain ⟨start, stands, same⟩ := mem_scopedNames_iff.1 member
    rw [same]
    exact .inr ⟨rfl, rfl, .slot slot is stands⟩

/-- What an attribute declares is among its names. -/
theorem Declares.mem_attributeNames {location : Location}
    (declares : Declares declaration location) (scope : Span) :
    ⟨location.name, location.category, location.offset, some scope⟩ ∈
      attributeNames scope declaration := by
  cases declares with
  | loop key is head stands =>
    rw [attributeNames_of_loop key is, loopAliases_eq head]
    exact mem_scopedNames_iff.2 ⟨_, stands, rfl⟩
  | slot key is stands =>
    rw [attributeNames_of_slot key is]
    exact mem_scopedNames_iff.2 ⟨_, stands, rfl⟩

/-- What an attribute declares has a scope. -/
theorem Declares.isScoped {location : Location} (declares : Declares declaration location) :
    location.category.isScoped = true := by
  cases declares with
  | loop => rfl
  | slot => rfl

/-- A declared variable stands in the value that declares it. -/
theorem Declares.standsAt {location : Location} (declares : Declares declaration location) :
    ∃ value start, declaration.value = some value ∧ location.name ≠ "" ∧
      location.offset = value.span.start + start ∧
      StandsAt value.text.toList start location.name.toList := by
  have named : ∀ {text : List Char} {start : Nat} {name : String},
      IdentifierAt text start name.toList → name ≠ "" := by
    rintro text start name ⟨run, -⟩ rfl
    exact run.nonempty rfl
  cases declares with
  | @loop value skipped start aliases name key is head stands =>
    have outer := loopAliases_standsAt value.text.toList
    rw [loopAliases_eq head] at outer
    exact ⟨value, skipped + start, is, named stands, Nat.add_assoc _ _ _,
      outer.trans stands.1.standsAt⟩
  | slot key is stands => exact ⟨_, _, is, named stands, rfl, stands.1.standsAt⟩

/-- A name of an attribute stands in its value. -/
theorem standsAt_of_mem (member : binding ∈ attributeNames scope declaration) :
    ∃ value start, declaration.value = some value ∧ binding.name ≠ "" ∧
      binding.position = value.span.start + start ∧
      StandsAt value.text.toList start binding.name.toList := by
  rcases cases_of_mem member with ⟨value, is, some, rfl⟩ | ⟨-, -, declares⟩
  · exact ⟨value, 0, is, some, rfl, .self _⟩
  · exact declares.standsAt

end Attribute

section Template

variable {rawTags : List String} {text : List Char} {element : Region}

/-- Where a name stands that an element of a text declares: inside the opening tag. -/
structure StandsIn (text : List Char) (element : Region) (name : String) (position : Nat) :
    Prop where
  named : name ≠ ""
  stands : StandsAt text position name.toList
  tag_lt : element.tagSpan.start < position
  lt_tag : position + width name.toList < element.tagSpan.stop

/-- What stands in the value of an attribute stands in the tag of its element. -/
theorem standsIn_of_value (member : element ∈ (Region.tree rawTags text).children.flatMap
      Region.descendants) {declaration : Attribute} (carries : declaration ∈ element.attributes)
    {value : AttributeValue} (is : declaration.value = some value) {name : String} {start : Nat}
    (named : name ≠ "") (stands : StandsAt value.text.toList start name.toList) :
    StandsIn text element name (value.span.start + start) := by
  obtain ⟨outer, tag_lt, lt_tag⟩ := Region.value_standsAt member carries is
  have inside := stands.stop_le
  exact ⟨named, outer.trans stands, by omega, by omega⟩

/-- What an attribute declares stands in the tag of its element. -/
theorem Declares.standsIn (member : element ∈ (Region.tree rawTags text).children.flatMap
      Region.descendants) {declaration : Attribute} (carries : declaration ∈ element.attributes)
    {location : Location} (declares : Declares declaration location) :
    StandsIn text element location.name location.offset := by
  obtain ⟨value, start, is, named, offset_eq, stands⟩ := declares.standsAt
  rw [offset_eq]
  exact standsIn_of_value member carries is named stands

/-- The names of an element stand in its tag. -/
theorem standsIn_of_mem (member : element ∈ (Region.tree rawTags text).children.flatMap
      Region.descendants) {binding : Binding} (named : binding ∈ elementNames element) :
    StandsIn text element binding.name binding.position := by
  obtain ⟨declaration, carries, introduced⟩ := List.mem_flatMap.1 named
  obtain ⟨value, start, is, some, position_eq, stands⟩ := standsAt_of_mem introduced
  rw [position_eq]
  exact standsIn_of_value member carries is some stands

/-- The names of an element come in the order of their positions. -/
theorem elementNames_pairwise (member : element ∈ (Region.tree rawTags text).children.flatMap
      Region.descendants) :
    (elementNames element).Pairwise fun first second => first.position < second.position := by
  rw [elementNames, List.pairwise_flatMap]
  refine ⟨fun declaration _ => attributeNames_pairwise _ declaration, ?_⟩
  apply (Region.attributes_pairwise member).imp_of_mem
  intro first second _ carries apart binding named binding' named'
  obtain ⟨value, start, is, some, position_eq, stands⟩ := standsAt_of_mem named
  obtain ⟨value', start', is', -, position_eq', -⟩ := standsAt_of_mem named'
  have ends := apart value is
  have key := Region.key_lt_value member carries is'
  have inside := stands.stop_le
  omega

/-- The names of a template come in the order of their positions. -/
theorem names_pairwise {template : Region}
    (member : template ∈ (Region.tree rawTags text).children) :
    (names template).Pairwise fun first second => first.position < second.position := by
  rw [names, List.pairwise_flatMap]
  have known : ∀ element ∈ template.descendants,
      element ∈ (Region.tree rawTags text).children.flatMap Region.descendants :=
    fun element below => mem_descendants_of_mem member below
  have ordered :=
    (List.pairwise_flatMap.1 (Region.elements_pairwise rawTags text)).1 template member
  refine ⟨fun element below => elementNames_pairwise (known element below), ?_⟩
  apply ordered.imp_of_mem
  intro first second below below' apart binding named binding' named'
  have earlier := (standsIn_of_mem (known first below) named).lt_tag
  have later := (standsIn_of_mem (known second below') named').tag_lt
  omega

end Template

end SfcIndex.Template
