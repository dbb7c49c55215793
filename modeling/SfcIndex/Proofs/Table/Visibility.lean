import SfcIndex.Proofs.Table.LongText
import SfcIndex.Proofs.Table.Order
import SfcIndex.Script.Read

/-! # From where loop and slot variables are seen

The loop and slot variables that a look-up finds are those declared by the elements around the place
of the look-up (`Table.build_resolvesScopes`). So a variable is seen from everywhere inside the
element that declares it, and from nowhere else.
-/

namespace SfcIndex

open Text Markup

namespace Table

/-- The loop and slot variables among the definitions of a name that are visible from a place. -/
def scopedQuery (table : Table) (name : String) (target : Span) : List Location :=
  (table.query name target).filter (·.category.isScoped)

/-- The element is one of a template that is not self-closing. -/
def OfTemplate (document element : Region) : Prop :=
  ∃ template ∈ document.children, template.isTag "template" = true ∧
    template.isSelfClosing = false ∧ element ∈ template.descendants

/-- Look-ups find the variables that are declared around a place. -/
structure ResolvesScopes (document : Region) (table : Table) : Prop where
  increasing : ∀ name target, (table.scopedQuery name target).Pairwise
    fun first second => first.offset < second.offset
  mem_iff : ∀ name target location, location ∈ table.scopedQuery name target ↔
    location.name = name ∧ ∃ element, OfTemplate document element ∧
      element.span.contains target = true ∧
      ∃ declaration ∈ element.attributes, Template.Declares declaration location
  /-- A variable of a closed element is seen from every element below it. -/
  inside : ∀ element tag, OfTemplate document element → element.ending = .closedBy tag →
    ∀ declaration ∈ element.attributes, ∀ location, Template.Declares declaration location →
    ∀ below ∈ element.descendants, ∀ target, below.span.contains target = true →
      location ∈ table.scopedQuery location.name target
  /-- A variable is not seen from a node that is neither the element that declares it nor above nor
  below that element. -/
  outside : ∀ element ∈ document.placed, ∀ declaration ∈ element.region.attributes,
    ∀ location, Template.Declares declaration location →
    ∀ node ∈ document.placed, node ≠ element → ¬ document.ProperAncestor node element →
    ¬ document.ProperAncestor element node →
    ∀ target, target.start < target.stop → node.region.span.contains target = true →
      location ∉ table.scopedQuery location.name target

section Query

variable {table : Table} {name : String} {target : Span} {location : Location}

/-- A query from inside a template finds the scoped bindings of a name whose scope is around it. -/
theorem mem_scopedQuery_iff :
    location ∈ table.scopedQuery name target ↔
      ∃ binding ∈ table.bindings, binding.location = location ∧ binding.name = name ∧
        binding.category.isScoped = true ∧
        ∀ scope ∈ binding.scope, scope.contains target = true := by
  have visible : ∀ binding : Binding, binding.category.isScoped = true →
      (binding.isVisibleFrom target = true ↔
        ∀ scope ∈ binding.scope, scope.contains target = true) := by
    intro binding limited
    rw [Binding.isVisibleFrom, limited]
    cases binding.scope <;> simp
  rw [scopedQuery, List.mem_filter, query, List.mem_map]
  constructor
  · rintro ⟨⟨binding, found, rfl⟩, limited⟩
    obtain ⟨member, holds⟩ := List.mem_filter.1 found
    rw [Bool.and_eq_true, decide_eq_true_iff] at holds
    exact ⟨binding, member, rfl, holds.1, limited, (visible binding limited).1 holds.2⟩
  · rintro ⟨binding, member, rfl, named, limited, within⟩
    refine ⟨⟨binding, List.mem_filter.2 ⟨member, ?_⟩, rfl⟩, limited⟩
    rw [Bool.and_eq_true, decide_eq_true_iff]
    exact ⟨named, (visible binding limited).2 within⟩

/-- A look-up finds what it finds in the order of the text. -/
theorem scopedQuery_pairwise (ordered : InOrder (·.isScoped = true) table.bindings) (name : String)
    (target : Span) :
    (table.scopedQuery name target).Pairwise fun first second => first.offset < second.offset := by
  rw [scopedQuery, List.pairwise_filter, query, List.pairwise_map]
  exact (ordered.filter _).imp id

end Query

section Contents

variable {reader : Script.Reader} {options : Options} {text : List Char}

/-- The scoped bindings of a text are declared in its templates. -/
theorem exists_declares (fits : width text ≤ Offset.limit) {binding : Binding}
    (limited : binding.category.isScoped = true)
    (member : binding ∈ (contents reader options text).bindings) :
    ∃ element, OfTemplate (Region.tree options.rawTags text) element ∧
      binding.scope = some element.span ∧
      ∃ declaration ∈ element.attributes, Template.Declares declaration binding.location := by
  rw [bindings_contents] at member
  obtain ⟨region, known, defined⟩ := List.mem_flatMap.1 member
  cases introduces_of_mem_part fits defined with
  | @template element _ tag opened below named =>
    obtain ⟨declaration, carries, introduced⟩ := List.mem_flatMap.1 named
    rcases Template.cases_of_mem introduced with ⟨value, -, -, rfl⟩ | ⟨-, scope, declares⟩
    · cases limited
    · exact ⟨element, ⟨region, known, tag, opened, below⟩, scope, declaration, carries, declares⟩
  | script is opened covers analyzed =>
    obtain ⟨identifier, category, known, rfl⟩ := Script.analyze_fromScript _ _ _ _ _ analyzed
    exact absurd limited (Bool.eq_false_iff.1 (Script.isScoped_eq_false known))
  | style tag opened covers scanned =>
    obtain ⟨start, sigil, selects⟩ := Style.selects_of_mem_scan scanned
    exact absurd limited (Bool.eq_false_iff.1 (Style.isScoped_eq_false selects.category))

/-- When templates are read, the scoped bindings of a text are the variables declared in them. -/
theorem mem_contents_iff (fits : width text ≤ Offset.limit) (enabled : options.template = true)
    {binding : Binding} (limited : binding.category.isScoped = true) :
    binding ∈ (contents reader options text).bindings ↔
      ∃ element, OfTemplate (Region.tree options.rawTags text) element ∧
        binding.scope = some element.span ∧
        ∃ declaration ∈ element.attributes, Template.Declares declaration binding.location := by
  refine ⟨exists_declares fits limited, ?_⟩
  rw [bindings_contents, List.mem_flatMap]
  rintro ⟨element, ⟨template, member, tag, opened, below⟩, scope, declaration, carries, declares⟩
  refine ⟨template, member, ?_⟩
  rw [part_of_template enabled tag opened]
  refine List.mem_flatMap.2 ⟨element, below, List.mem_flatMap.2 ⟨declaration, carries, ?_⟩⟩
  have introduced := declares.mem_attributeNames element.span
  rw [← scope] at introduced
  exact introduced

/-- The scoped bindings of a text are in order. -/
theorem contents_inOrder_isScoped (reader : Script.Reader) (options : Options)
    (fits : width text ≤ Offset.limit) :
    InOrder (·.isScoped = true) (contents reader options text).bindings := by
  apply contents_inOrder fits
  intro region member is opened script covers
  -- No name of a script has a scope, so nothing has to be known of its names.
  have none : ∀ binding ∈
      (Script.analyze reader (languageOf region) (region.hasAttribute "setup") script).bindings,
      ¬ binding.category.isScoped = true := by
    intro binding analyzed
    obtain ⟨identifier, category, known, rfl⟩ := Script.analyze_fromScript _ _ _ _ binding analyzed
    exact Bool.eq_false_iff.1 (Script.isScoped_eq_false known)
  refine ⟨?_, fun binding analyzed limited => absurd limited (none binding analyzed)⟩
  refine List.Pairwise.imp_of_mem ?_ (List.pairwise_of_forall fun _ _ => trivial)
  intro first second analyzed _ _ limited
  exact absurd limited (none first analyzed)

/-- A look-up in a text finds the variables that the elements around the place declare. -/
theorem mem_scopedQuery_contents_iff (fits : width text ≤ Offset.limit)
    (enabled : options.template = true) {name : String} {target : Span} {location : Location} :
    location ∈ (contents reader options text).scopedQuery name target ↔
      location.name = name ∧ ∃ element, OfTemplate (Region.tree options.rawTags text) element ∧
        element.span.contains target = true ∧
        ∃ declaration ∈ element.attributes, Template.Declares declaration location := by
  rw [mem_scopedQuery_iff]
  constructor
  · rintro ⟨binding, defined, rfl, named, limited, within⟩
    obtain ⟨element, located, scope, declares⟩ := (mem_contents_iff fits enabled limited).1 defined
    exact ⟨named, element, located, within _ scope, declares⟩
  · rintro ⟨rfl, element, located, within, declaration, carries, declares⟩
    have limited := declares.isScoped
    let binding : Binding := ⟨location.name, location.category, location.offset, some element.span⟩
    have defined : binding ∈ (contents reader options text).bindings :=
      (mem_contents_iff fits enabled limited).2
        ⟨element, located, rfl, declaration, carries, declares⟩
    refine ⟨binding, defined, rfl, rfl, limited, ?_⟩
    intro scope is
    cases is
    exact within

end Contents

section Elements

variable {rawTags : List String} {text : List Char} {place other : Region.Placed}

/-- A node with an attribute is an element. -/
theorem mem_elements_of_attribute (member : place ∈ (Region.tree rawTags text).placed)
    {declaration : Attribute} (carries : declaration ∈ place.region.attributes) :
    place.region ∈ (Region.tree rawTags text).children.flatMap Region.descendants := by
  rcases (Region.tree_laid rawTags text).placed_cases member with rfl | below
  · cases carries
  · rw [← Region.map_region_forest (some 0) 1]
    exact List.mem_map_of_mem below

/-- A variable is declared by one element only. -/
theorem eq_of_declares (member : place ∈ (Region.tree rawTags text).placed)
    (member' : other ∈ (Region.tree rawTags text).placed) {declaration declaration' : Attribute}
    (carries : declaration ∈ place.region.attributes)
    (carries' : declaration' ∈ other.region.attributes) {location : Location}
    (declares : Template.Declares declaration location)
    (declares' : Template.Declares declaration' location) : place = other := by
  have here := declares.standsIn (mem_elements_of_attribute member carries) carries
  have there := declares'.standsIn (mem_elements_of_attribute member' carries') carries'
  have stop := here.lt_tag
  have stop' := there.lt_tag
  exact (Region.tree_laid rawTags text).eq_of_tags member member' ⟨here.tag_lt, by omega⟩
    ⟨there.tag_lt, by omega⟩

/-- An element of a template has a place in the tree. -/
theorem OfTemplate.exists_placed {element : Region}
    (located : OfTemplate (Region.tree rawTags text) element) :
    ∃ place ∈ (Region.tree rawTags text).placed, place.region = element := by
  obtain ⟨template, member, -, -, below⟩ := located
  exact Region.exists_placed (Template.mem_descendants_of_mem member below)

end Elements

/-- What a text defines resolves scopes. -/
theorem resolvesScopes_contents (reader : Script.Reader) {options : Options} {text : List Char}
    (fits : width text ≤ Offset.limit) (enabled : options.template = true) :
    (contents reader options text).ResolvesScopes (Region.tree options.rawTags text) := by
  have laidOut := Region.tree_laid options.rawTags text
  refine ⟨scopedQuery_pairwise (contents_inOrder_isScoped reader options fits),
    fun name target location => mem_scopedQuery_contents_iff fits enabled, ?_, ?_⟩
  · intro element tag located closed declaration carries location declares below deeper target
      within
    refine (mem_scopedQuery_contents_iff fits enabled).2
      ⟨rfl, element, located, ?_, declaration, carries, declares⟩
    obtain ⟨place, known, rfl⟩ := located.exists_placed
    obtain ⟨after, before⟩ := Span.contains_iff.1 (laidOut.contains_descendant known closed deeper)
    obtain ⟨start_le, le_stop⟩ := Span.contains_iff.1 within
    exact Span.contains_iff.2 ⟨Nat.le_trans after start_le, Nat.le_trans le_stop before⟩
  · intro element known declaration carries location declares node known' different above below
      target nonempty within found
    obtain ⟨-, region, located, covers, declaration', carries', declares'⟩ :=
      (mem_scopedQuery_contents_iff fits enabled).1 found
    -- The element that the look-up went by is the one that carries the declaration, because the
    -- location lies inside the tags of both.
    obtain ⟨place, member, rfl⟩ := located.exists_placed
    obtain rfl := eq_of_declares member known carries' carries declares' declares
    rcases laidOut.related_of_overlap known' known nonempty within covers with same | up | down
    · exact different same
    · exact above up
    · exact below down

/-- The loop and slot variables that a look-up in the table of a text finds are those that the
elements of templates around the place of the look-up declare, in the order of the text, if the text
ends below the limit of offsets. -/
theorem build_resolvesScopes (reader : Script.Reader) {text : List Char}
    (fits : width text ≤ Offset.limit) :
    ∃ document, Region.parse ({} : Options).rawTags text = .ok document ∧
      (∀ table, build reader {} text = .ok table → table.ResolvesScopes document) ∧
      (ScriptsStayInside reader {} text → ∃ table, build reader {} text = .ok table) := by
  refine ⟨_, Region.parse_eq_ok _ fits, ?_, ?_⟩
  · intro table built
    rw [eq_contents_of_build fits built]
    exact resolvesScopes_contents reader fits rfl
  · intro scripts
    exact ⟨_, (build_gives reader {} fits).eq_ok ((below_contents scripts).mono fits)⟩

/-- So it is for a loop around a slot that is never closed, and for elements beside them. -/
theorem build_resolvesScopes_unclosed :
    let text := "<template><u v-for='(a, i) in b'><i #s='x'></u><b ref='r'/></template>".toList
    width text ≤ Offset.limit ∧ ScriptsStayInside Script.read {} text ∧
      ∃ document table, Region.parse ({} : Options).rawTags text = .ok document ∧
        build Script.read {} text = .ok table ∧ table.ResolvesScopes document := by
  intro text
  have fits : width text ≤ Offset.limit := by decide +kernel
  have scripts : ScriptsStayInside Script.read {} text := by decide +kernel
  obtain ⟨document, parsed, resolves, builds⟩ := build_resolvesScopes Script.read fits
  obtain ⟨table, built⟩ := builds scripts
  exact ⟨fits, scripts, document, table, parsed, built, resolves table built⟩

/-- In a text that is too long a variable need not be seen inside the element that declares it: the
scope of the loop variable of `loopText` ends in front of the content of the loop. -/
theorem build_resolvesScopes_tooLong :
    ∃ document table, Region.parse ({} : Options).rawTags loopText = .ok document ∧
      build Script.read {} loopText = .ok table ∧ ¬ table.ResolvesScopes document := by
  let document := (loopTags.foldl Builder.grow .start).finish 20
  refine ⟨document, _, parse_loopText, build_loopText Script.read, fun resolves => ?_⟩
  let template := document.children.get ⟨0, by decide +kernel⟩
  let loop := template.descendants.get ⟨1, by decide +kernel⟩
  let declaration := loop.attributes.get ⟨0, by decide +kernel⟩
  let inner := loop.descendants.get ⟨1, by decide +kernel⟩
  have located : OfTemplate document loop :=
    ⟨template, List.get_mem _ _, by decide +kernel, by decide +kernel, List.get_mem _ _⟩
  have closed : loop.ending = .closedBy ⟨16, 20⟩ := by decide +kernel
  have declares : Template.Declares declaration ⟨"a", .vForScope, 20⟩ := by
    have named : (⟨"a", .vForScope, 20, some ⟨10, 20⟩⟩ : Binding) ∈
        Template.attributeNames ⟨10, 20⟩ declaration := by decide +kernel
    rcases Template.cases_of_mem named with ⟨value, -, -, other⟩ | ⟨-, -, declares⟩
    · cases congrArg Binding.category other
    · exact declares
  -- The element in the loop lies behind the scope of the variable.
  have found := resolves.inside loop _ located closed declaration (List.get_mem _ _) _ declares
    inner (List.get_mem _ _) ⟨37, 40⟩ (by decide +kernel)
  revert found
  decide +kernel

end Table

end SfcIndex
