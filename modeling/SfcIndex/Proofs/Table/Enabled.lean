import SfcIndex.Proofs.Table.Introduced
import SfcIndex.Script.Read

/-! # Tables of texts of which only some regions are read

Every name and every warning of a region belongs to the region's kind (`Table.part_belongs`). So
switching kinds of region off leaves out of a table what belongs to them, and nothing else changes
(`Table.build_restrict`).
-/

namespace SfcIndex

open Text Markup

/-- The kind of region in which names of a category are found. -/
def Category.home : Category → Section
  | .ref | .vForScope | .slotScope => .template
  | .component | .setup | .prop | .data | .computed | .method => .script
  | .styleClass | .styleId => .style

/-- The kind of region with a tag name. -/
def Section.ofName? (name : String) : Option Section :=
  [template, script, style].find? fun kind => sameName name kind.tag

/-- The kind of region that a warning is about. -/
def Warning.home? : Warning → Option Section
  | .scriptSyntax _ _ => some .script
  | .classComponent _ => some .script
  | .unclosedRegion name _ => Section.ofName? name
  | .unsupportedDocument _ _ => none

/-- The options with every kind of region switched on. -/
def Options.full (options : Options) : Options :=
  { options with template := true, script := true, style := true }

/-- The full options read every kind of region. -/
theorem Options.enables_full (options : Options) (kind : Section) :
    options.full.enables kind = true := by
  cases kind <;> rfl

namespace Table

/-- What a table holds of the kinds of region that are read. -/
def restrict (options : Options) (table : Table) : Table where
  bindings := table.bindings.filter fun binding => options.enables binding.category.home
  warnings := table.warnings.filter fun warning => warning.home?.any options.enables

section Restrict

variable {reader : Script.Reader} {options : Options} {kind : Section}

theorem restrict_append (options : Options) (first second : Table) :
    (first.append second).restrict options =
      (first.restrict options).append (second.restrict options) := by
  simp only [restrict, append, List.filter_append]

/-- Tables in a row are restricted one by one. -/
theorem restrict_concat (options : Options) (tables : List Table) :
    (concat tables).restrict options = concat (tables.map (restrict options)) := by
  induction tables with
  | nil => rfl
  | cons first more ih => rw [List.map_cons, concat_cons, concat_cons, restrict_append, ih]

/-- Everything in a table belongs to one kind of region. -/
structure Belongs (kind : Section) (table : Table) : Prop where
  bindings : ∀ binding ∈ table.bindings, binding.category.home = kind
  warnings : ∀ warning ∈ table.warnings, warning.home? = some kind

theorem belongs_empty (kind : Section) : Belongs kind empty := by
  constructor
  · intro binding member
    cases member
  · intro warning member
    cases member

theorem Belongs.append {first second : Table} (left : Belongs kind first)
    (right : Belongs kind second) : Belongs kind (first.append second) := by
  constructor
  · intro binding member
    exact (List.mem_append.1 member).elim (left.bindings binding) (right.bindings binding)
  · intro warning member
    exact (List.mem_append.1 member).elim (left.warnings warning) (right.warnings warning)

/-- What belongs to a kind that is read stays. -/
theorem Belongs.restrict_eq_self {table : Table} (belongs : Belongs kind table)
    (enabled : options.enables kind = true) : table.restrict options = table := by
  have bindings : table.bindings.filter (fun binding => options.enables binding.category.home) =
      table.bindings := by
    apply List.filter_eq_self.2
    intro binding member
    rw [belongs.bindings binding member, enabled]
  have warnings : table.warnings.filter (fun warning => warning.home?.any options.enables) =
      table.warnings := by
    apply List.filter_eq_self.2
    intro warning member
    rw [belongs.warnings warning member, Option.any_some, enabled]
  rw [restrict, bindings, warnings]

/-- What belongs to a kind that is not read is left out. -/
theorem Belongs.restrict_eq_empty {table : Table} (belongs : Belongs kind table)
    (disabled : options.enables kind = false) : table.restrict options = empty := by
  have bindings : table.bindings.filter (fun binding => options.enables binding.category.home) =
      [] := by
    apply List.filter_eq_nil_iff.2
    intro binding member
    rw [belongs.bindings binding member, disabled]
    exact Bool.false_ne_true
  have warnings : table.warnings.filter (fun warning => warning.home?.any options.enables) =
      [] := by
    apply List.filter_eq_nil_iff.2
    intro warning member
    rw [belongs.warnings warning member, Option.any_some, disabled]
    exact Bool.false_ne_true
  rw [restrict, bindings, warnings, empty]

end Restrict

section Kind

variable {text : List Char} {region : Region}

/-- Only templates have names with a scope. -/
theorem home_of_isScoped {category : Category} (limited : category.isScoped = true) :
    category.home = .template := by
  cases category with
  | vForScope => rfl
  | slotScope => rfl
  | _ => cases limited

/-- The names in a template are at home there. -/
theorem home_of_mem_names {binding : Binding} (member : binding ∈ Template.names region) :
    binding.category.home = .template := by
  obtain ⟨element, -, named⟩ := List.mem_flatMap.1 member
  obtain ⟨declaration, -, introduced⟩ := List.mem_flatMap.1 named
  rcases Template.cases_of_mem introduced with ⟨value, -, -, rfl⟩ | ⟨limited, -⟩
  · rfl
  · exact home_of_isScoped limited

/-- The categories of a script are at home there. -/
theorem home_of_script {category : Category} (known : category ∈ Script.categories) :
    category.home = .script := by
  revert category
  decide

/-- What a script defines, with the warnings about it, belongs to scripts. -/
theorem scriptPart_belongs (reader : Script.Reader) (region : Region) (content : Span)
    (script : List Char) :
    Belongs .script (scriptPart reader region content script) := by
  constructor
  · intro binding member
    obtain ⟨given, analyzed, rfl⟩ := List.mem_map.1 member
    obtain ⟨identifier, category, known, rfl⟩ := Script.analyze_fromScript _ _ _ _ given analyzed
    exact home_of_script known
  · intro warning member
    rcases List.mem_append.1 member with diagnosed | isClass
    · obtain ⟨message, -, rfl⟩ := List.mem_map.1 diagnosed
      rfl
    · obtain ⟨-, only⟩ := List.mem_ite_nil_right.1 isClass
      rw [List.mem_singleton.1 only]
      rfl

/-- Everything that a style gives belongs to styles. -/
theorem stylePart_belongs (content : Span) (style : List Char) :
    Belongs .style (stylePart content style) := by
  constructor
  · intro binding member
    obtain ⟨given, scanned, rfl⟩ := List.mem_map.1 member
    obtain ⟨start, sigil, selects⟩ := Style.selects_of_mem_scan scanned
    change given.category.home = .style
    rcases Style.eq_of_sigilCategory? selects.category with ⟨-, is⟩ | ⟨-, is⟩
    · rw [is]
      rfl
    · rw [is]
      rfl
  · intro warning member
    cases member

/-- What is read of a region belongs to the region's kind. -/
theorem Reads.belongs {reader : Script.Reader} {content : Span} {table : Table} {kind : Section}
    (reads : Reads reader text region content table)
    (is : Section.ofRegion? region = some kind) : Belongs kind table := by
  cases reads with
  | nothing => exact belongs_empty kind
  | template is' =>
    cases is.symm.trans is'
    refine ⟨fun binding member => home_of_mem_names member, ?_⟩
    intro warning member
    cases member
  | script is' covers =>
    cases is.symm.trans is'
    exact scriptPart_belongs _ _ _ _
  | style is' covers =>
    cases is.symm.trans is'
    exact stylePart_belongs _ _

/-- What a region defines, with the warnings about it, belongs to the region's kind. -/
theorem part_belongs (reader : Script.Reader) (options : Options) (text : List Char)
    {kind : Section} (is : Section.ofRegion? region = some kind) :
    Belongs kind (part reader options text region) := by
  rcases part_cases reader options text region with nothing | ⟨-, table, reads, same⟩
  · rw [nothing]
    exact belongs_empty kind
  · rw [same]
    refine Belongs.append ⟨?_, ?_⟩ (reads.belongs is)
    · intro binding member
      cases member
    · intro warning member
      obtain ⟨-, only⟩ := List.mem_ite_nil_right.1 member
      rw [List.mem_singleton.1 only]
      exact is

end Kind

/-- A region of a kind that is not read defines nothing, and any other what it defines when all
kinds are read. -/
theorem ofRegion_restrict {reader : Script.Reader} {options : Options} {text : List Char}
    {region : Region} {table : Table}
    (whole : ofRegion reader options.full text region = .ok table) :
    ofRegion reader options text region = .ok (table.restrict options) := by
  have same := ofRegion_only _ _ _ _ table whole
  cases is : Section.ofRegion? region with
  | none =>
    rw [ofRegion, is] at whole ⊢
    cases whole
    rfl
  | some kind =>
    have belongs := part_belongs reader options.full text is
    rw [← same] at belongs
    cases enabled : options.enables kind with
    | true =>
      rw [belongs.restrict_eq_self enabled, ← whole, ofRegion, ofRegion, is,
        Option.filter_some_pos enabled, Option.filter_some_pos (options.enables_full kind)]
    | false =>
      rw [belongs.restrict_eq_empty enabled, ofRegion, is,
        Option.filter_some_neg enabled]
      rfl

/-- So it is for several regions. -/
theorem ofRegions_restrict {reader : Script.Reader} {options : Options} {text : List Char}
    {regions : List Region} {tables : List Table}
    (whole : regions.mapM (ofRegion reader options.full text) = .ok tables) :
    regions.mapM (ofRegion reader options text) = .ok (tables.map (restrict options)) := by
  induction regions generalizing tables with
  | nil =>
    cases whole
    rfl
  | cons region more ih =>
    obtain ⟨first, rest, head, tail, rfl⟩ := Offset.exists_of_mapM_cons whole
    rw [List.mapM_cons, ofRegion_restrict head, ih tail]
    rfl

/-- The table of a text of which only some kinds of region are read holds, in their order, those
bindings and those warnings of the whole table that belong to these kinds. The whole table exists
when the text ends below the limit of offsets and the names of scripts lie inside their scripts. -/
theorem build_restrict (reader : Script.Reader) (options : Options) (text : List Char) :
    (∀ table, build reader options.full text = .ok table →
      build reader options text = .ok (table.restrict options)) ∧
    (width text ≤ Offset.limit → ScriptsStayInside reader options text →
      ∃ table, build reader options.full text = .ok table) := by
  constructor
  · intro table built
    obtain ⟨document, parsed, collected⟩ := Offset.exists_of_bind built
    obtain ⟨tables, regions, whole⟩ := Offset.exists_of_bind collected
    cases whole
    have parsed' : Region.parse options.rawTags text = .ok document := parsed
    rw [build, parsed', restrict_concat]
    change (document.children.mapM (ofRegion reader options text) >>= _) = _
    rw [ofRegions_restrict regions]
    rfl
  · intro fits scripts
    have inside : ScriptsStayInside reader options.full text := scripts
    exact ⟨_, (build_gives reader options.full fits).eq_ok ((below_contents inside).mono fits)⟩

/-- So it is when the names of a script are left out between a template and a style without an
end. -/
theorem build_restrict_scriptless :
    let options : Options := { script := false }
    let text := "<template><i ref='x'/></template><SCRIPT setup>let y =</SCRIPT><style>.a\x7b".toList
    width text ≤ Offset.limit ∧ ScriptsStayInside Script.read options text ∧
      ∃ table, build Script.read options.full text = .ok table ∧
        build Script.read options text = .ok (table.restrict options) := by
  intro options text
  have fits : width text ≤ Offset.limit := by decide
  have scripts : ScriptsStayInside Script.read options text := by decide +kernel
  obtain ⟨filtered, exists_table⟩ := build_restrict Script.read options text
  obtain ⟨table, built⟩ := exists_table fits scripts
  exact ⟨fits, scripts, table, built, filtered table built⟩

end Table

end SfcIndex
