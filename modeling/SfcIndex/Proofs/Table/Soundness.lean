import SfcIndex.Proofs.Script.Walk
import SfcIndex.Proofs.Table.Introduced

/-! # What a table says is in the text

Every binding of a table is found in the text at its position (`Table.build_sound`): the names of
templates start there, inside the tag of an element, and the names of styles end there, behind their
sigil.
-/

namespace SfcIndex

open Text Markup

namespace Binding

/-- The bytes of a binding's name, when the name starts at the binding's position. -/
def nameSpan (binding : Binding) : Span :=
  ⟨binding.position, binding.position + width binding.name.toList⟩

/-- The name starts at the position, inside the opening tag of an element of a template, and a scope
is the span of that element. -/
def InTemplate (document : Region) (text : List Char) (binding : Binding) : Prop :=
  ∃ template ∈ document.children, template.isTag "template" = true ∧
    ∃ element ∈ template.descendants,
      binding.nameSpan.slice? text = some binding.name.toList ∧
      element.tagSpan.contains binding.nameSpan = true ∧
      ∀ scope ∈ binding.scope, scope = element.span ∧ scope.stop ≤ width text ∧
        scope.contains binding.nameSpan = true

/-- The name ends at the position, behind the given sigil, in the content of a style. -/
def InStyle (document : Region) (text : List Char) (sigil : Char) (binding : Binding) : Prop :=
  ∃ style ∈ document.children, style.isTag "style" = true ∧ style.isSelfClosing = false ∧
    ∃ start, (⟨start, binding.position⟩ : Span).slice? text = some (sigil :: binding.name.toList) ∧
      (style.body (width text)).contains ⟨start, binding.position⟩ = true

/-- The position lies in the content of a script. -/
def InScript (document : Region) (text : List Char) (binding : Binding) : Prop :=
  ∃ script ∈ document.children, script.isTag "script" = true ∧ script.isSelfClosing = false ∧
    (script.body (width text)).contains (.emptyAt binding.position) = true

/-- The binding is in the text, where its category says. -/
def Found (document : Region) (text : List Char) (binding : Binding) : Prop :=
  match binding.category with
  | .ref | .vForScope | .slotScope => binding.InTemplate document text
  | .styleClass => binding.InStyle document text '.'
  | .styleId => binding.InStyle document text '#'
  | .component | .setup | .prop | .data | .computed | .method => binding.InScript document text

/-- A binding has a name, only loop and slot variables have a scope, and it is in the text. -/
structure Sound (document : Region) (text : List Char) (binding : Binding) : Prop where
  named : binding.name ≠ ""
  scope_iff : binding.scope.isSome = true ↔ binding.category.isScoped = true
  found : binding.Found document text

end Binding

namespace Table

section Sound

variable {rawTags : List String} {text : List Char} {region element : Region} {binding : Binding}

/-- A name of a template is in the text. -/
theorem sound_of_template (member : region ∈ (Region.tree rawTags text).children)
    (tag : region.isTag "template" = true) (below : element ∈ region.descendants)
    (named : binding ∈ Template.elementNames element) :
    binding.Sound (Region.tree rawTags text) text := by
  have known := Template.mem_descendants_of_mem member below
  have inside := Template.standsIn_of_mem known named
  have tag_lt := inside.tag_lt
  have lt_tag := inside.lt_tag
  obtain ⟨next, bounds⟩ := Region.exists_bounds known
  have tag_le := bounds.tag_le_span
  have covered : element.span.contains binding.nameSpan = true :=
    Span.contains_iff.2 ⟨Nat.le_of_lt tag_lt, Nat.le_trans (Nat.le_of_lt lt_tag) tag_le⟩
  have placed : (∀ scope ∈ binding.scope, scope = element.span) →
      binding.InTemplate (Region.tree rawTags text) text := by
    intro is
    refine ⟨region, member, tag, element, below, standsAt_iff_slice?.1 inside.stands,
      Span.contains_iff.2 ⟨Nat.le_of_lt tag_lt, Nat.le_of_lt lt_tag⟩, ?_⟩
    intro scope given
    rw [is scope given]
    exact ⟨rfl, bounds.stop_le, covered⟩
  obtain ⟨declaration, carries, introduced⟩ := List.mem_flatMap.1 named
  rcases Template.cases_of_mem introduced with ⟨value, -, -, rfl⟩ | ⟨limited, scope_eq, -⟩
  · exact ⟨inside.named, by simp [Category.isScoped], placed (by simp)⟩
  · have found := placed fun scope given => by
      rw [scope_eq] at given
      exact (Option.some.inj given).symm
    refine ⟨inside.named, iff_of_true (by rw [scope_eq]; rfl) limited, ?_⟩
    obtain ⟨name, category, position, scope⟩ := binding
    cases category with
    | vForScope => exact found
    | slotScope => exact found
    | _ => cases limited

/-- A name of a script is in the text. -/
theorem sound_of_script {script : List Char}
    (member : region ∈ (Region.tree rawTags text).children)
    (tag : region.isTag "script" = true) (opened : region.isSelfClosing = false)
    (covers : (region.body (width text)).slice? text = some script) {identifier : Script.Identifier}
    {category : Category} (known : category ∈ Script.categories)
    (named : identifier.name ≠ "") (inside : identifier.span.stop ≤ width script) :
    ((identifier.binding category).move (region.body (width text)).start).Sound
      (Region.tree rawTags text) text := by
  have stop := (standsAt_of_slice? covers).2
  have within : (region.body (width text)).contains
      (.emptyAt (identifier.span.stop + (region.body (width text)).start)) = true := by
    refine Span.contains_iff.2 ⟨Nat.le_add_left _ _, ?_⟩
    dsimp only [Span.emptyAt]
    omega
  have found : ((identifier.binding category).move (region.body (width text)).start).InScript
      (Region.tree rawTags text) text := ⟨region, member, tag, opened, within⟩
  refine ⟨named, iff_of_false Bool.false_ne_true ?_, ?_⟩
  · exact Bool.eq_false_iff.1 (Script.isScoped_eq_false known)
  · cases category with
    | ref => exact absurd known (by decide)
    | vForScope => exact absurd known (by decide)
    | slotScope => exact absurd known (by decide)
    | styleClass => exact absurd known (by decide)
    | styleId => exact absurd known (by decide)
    | _ => exact found

/-- A name of a style is in the text. -/
theorem sound_of_style {style : List Char}
    (member : region ∈ (Region.tree rawTags text).children)
    (tag : region.isTag "style" = true) (opened : region.isSelfClosing = false)
    (covers : (region.body (width text)).slice? text = some style)
    (scanned : binding ∈ Style.bindings style) :
    (binding.move (region.body (width text)).start).Sound (Region.tree rawTags text) text := by
  obtain ⟨start, sigil, selects⟩ := Style.selects_of_mem_scan scanned
  obtain ⟨outer, stop⟩ := standsAt_of_slice? covers
  have inside := selects.stands.stop_le
  obtain ⟨name, category, position, scope⟩ := binding
  obtain rfl : scope = none := selects.unlimited
  have position_eq : position + (region.body (width text)).start =
      (region.body (width text)).start + start + width (sigil :: name.toList) := by
    have := selects.position
    dsimp only at this
    omega
  have found : (Binding.move (region.body (width text)).start
      ⟨name, category, position, none⟩).InStyle (Region.tree rawTags text) text sigil := by
    refine ⟨region, member, tag, opened, (region.body (width text)).start + start, ?_, ?_⟩
    · dsimp only [Binding.move]
      rw [position_eq]
      exact standsAt_iff_slice?.1 (outer.trans selects.stands)
    · refine Span.contains_iff.2 ⟨Nat.le_add_right _ _, ?_⟩
      dsimp only [Binding.move] at inside ⊢
      omega
  rcases Style.eq_of_sigilCategory? selects.category with ⟨rfl, rfl⟩ | ⟨rfl, rfl⟩
  · exact ⟨selects.named, iff_of_false Bool.false_ne_true Bool.false_ne_true, found⟩
  · exact ⟨selects.named, iff_of_false Bool.false_ne_true Bool.false_ne_true, found⟩

end Sound

/-- What is assumed of a script: its names lie inside it. -/
def NamesInside (script : List Char) (bindings : List Binding) : Prop :=
  ∀ binding ∈ bindings, binding.position ≤ width script

instance (script : List Char) (bindings : List Binding) :
    Decidable (NamesInside script bindings) :=
  inferInstanceAs (Decidable (∀ binding ∈ bindings, _))

/-- What is assumed of the words of scripts: none of those that are read is empty. -/
def WordsNamed (reader : Script.Reader) (options : Options) (text : List Char) : Prop :=
  EachScriptIn options text fun region script =>
    ∀ statement ∈ (reader (languageOf region) script).outline,
      (Script.Node.statement statement).WordsNamed

/-- The words of scripts have names if a check to some depth says so of all of them. -/
theorem wordsNamed_of_check {reader : Script.Reader} {options : Options} {text : List Char}
    {depth : Nat} (checked : EachScriptIn options text fun region script =>
      ∀ statement ∈ (reader (languageOf region) script).outline,
        (Script.Node.statement statement).checkNamed depth = true) :
    WordsNamed reader options text := by
  intro region member is opened script covers statement read
  apply Script.Node.wordsNamed_of_checkNamed
  exact checked region member is opened script covers statement read

/-- Every binding of the table of a text that ends below the limit is in the text. -/
theorem build_sound (reader : Script.Reader) (options : Options) {text : List Char}
    (fits : width text ≤ Offset.limit) (scripts : EachScript reader options text NamesInside)
    (words : WordsNamed reader options text) :
    ∃ document table, Region.parse options.rawTags text = .ok document ∧
      build reader options text = .ok table ∧
      ∀ binding ∈ table.bindings, binding.Sound document text := by
  have inside : ScriptsStayInside reader options text := scriptsStayInside fits scripts
  refine ⟨_, _, Region.parse_eq_ok options.rawTags fits,
    (build_gives reader options fits).eq_ok ((below_contents inside).mono fits), ?_⟩
  intro binding defined
  rw [bindings_contents] at defined
  obtain ⟨region, member, introduced⟩ := List.mem_flatMap.1 defined
  cases introduces_of_mem_part fits introduced with
  | template tag opened below named => exact sound_of_template member tag below named
  | script is opened covers analyzed =>
    have within := scripts region member is opened _ covers _ analyzed
    have named := Script.outlineBindings_named (words region member is opened _ covers) _ analyzed
    obtain ⟨identifier, category, known, rfl⟩ := Script.analyze_fromScript _ _ _ _ _ analyzed
    exact sound_of_script member (Section.isTag_of_ofRegion? is) opened covers known named within
  | style tag opened covers scanned => exact sound_of_style member tag opened covers scanned

/-- So it is for a template that is cut short, a script, and a style without an end. -/
theorem build_sound_unclosed :
    let text :=
      "<template>é<b v-for='a in x'></template><script setup>let y</script><style>.s\x7b".toList
    width text ≤ Offset.limit ∧ EachScript Script.read {} text NamesInside ∧
      WordsNamed Script.read {} text ∧
      ∃ document table, Region.parse ({} : Options).rawTags text = .ok document ∧
        build Script.read {} text = .ok table ∧
        ∀ binding ∈ table.bindings, binding.Sound document text := by
  intro text
  have fits : width text ≤ Offset.limit := by decide +kernel
  have scripts : EachScript Script.read {} text NamesInside := by decide +kernel
  have words : WordsNamed Script.read {} text :=
    @wordsNamed_of_check _ _ _ 5 (by decide +kernel)
  exact ⟨fits, scripts, words, build_sound Script.read {} fits scripts words⟩

end Table

end SfcIndex
