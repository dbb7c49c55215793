import SfcIndex.Proofs.Script.Names
import SfcIndex.Proofs.Table.Contents
import SfcIndex.Proofs.Template.Declares

/-! # What introduces a binding

A binding of a table comes from an element of a template, from a script or from a style at the top
level (`Table.introduces_of_mem_part`). What is assumed of scripts is said of each script of a text
(`Table.EachScript`).
-/

namespace SfcIndex

open Text Markup

/-- What is read of a region that is not self-closing: its content, up to the end of a text of the
given length when it has no closing tag. -/
def Markup.Region.body (length : Nat) (region : Region) : Span :=
  ⟨region.tagSpan.stop, region.contentStop?.getD length⟩

/-- A region that is read has the tag of its kind. -/
theorem Section.isTag_of_ofRegion? {region : Region} {kind : Section}
    (is : Section.ofRegion? region = some kind) : region.isTag kind.tag = true :=
  List.find?_some (p := fun kind : Section => region.isTag kind.tag) is

/-- A region with the tag of a template is one. -/
theorem Section.ofRegion?_of_template {region : Region} (is : region.isTag "template" = true) :
    Section.ofRegion? region = some .template :=
  List.find?_cons_of_pos is

namespace Table

/-- A property of every script of a text and of the region that holds it. -/
def EachScriptIn (options : Options) (text : List Char) (property : Region → List Char → Prop) :
    Prop :=
  ∀ region ∈ (Region.tree options.rawTags text).children,
    Section.ofRegion? region = some .script → region.isSelfClosing = false →
      ∀ script ∈ (region.body (width text)).slice? text, property region script

instance (options : Options) (text : List Char) (property : Region → List Char → Prop)
    [∀ region script, Decidable (property region script)] :
    Decidable (EachScriptIn options text property) :=
  inferInstanceAs (Decidable (∀ region ∈ (Region.tree options.rawTags text).children, _))

/-- A property of every script of a text and of its names. -/
def EachScript (reader : Script.Reader) (options : Options) (text : List Char)
    (property : List Char → List Binding → Prop) : Prop :=
  EachScriptIn options text fun region script => property script
    (Script.analyze reader (languageOf region) (region.hasAttribute "setup") script).bindings

instance (reader : Script.Reader) (options : Options) (text : List Char)
    (property : List Char → List Binding → Prop)
    [∀ script bindings, Decidable (property script bindings)] :
    Decidable (EachScript reader options text property) :=
  inferInstanceAs (Decidable (EachScriptIn options text _))

/-- A property of every script has its consequences for every script. -/
theorem EachScript.imp {reader : Script.Reader} {options : Options} {text : List Char}
    {property weaker : List Char → List Binding → Prop}
    (each : EachScript reader options text property)
    (implies : ∀ script bindings, property script bindings → weaker script bindings) :
    EachScript reader options text weaker := by
  intro region member is opened script covers
  exact implies script _ (each region member is opened script covers)

section Content

variable {text : List Char} {region : Region}

/-- The content of a region is its body, with a warning when it has no end. -/
theorem content?_eq_some {content : Span} {warnings : List Warning}
    (found : content? text region = some (content, warnings)) :
    region.isSelfClosing = false ∧ content = region.body (Offset.cut (width text)) ∧
      warnings = if region.ending = .unclosed then [.unclosedRegion region.name region.tagSpan]
        else [] := by
  obtain ⟨opening, ending, children⟩ := region
  cases ending with
  | selfClosing => cases found
  | unclosed =>
    cases found
    exact ⟨rfl, rfl, rfl⟩
  | closedBy tag =>
    cases found
    exact ⟨rfl, rfl, rfl⟩

/-- A region that does not close itself has a content. -/
theorem exists_content? (text : List Char) (opened : region.isSelfClosing = false) :
    ∃ warnings,
      content? text region = some (region.body (Offset.cut (width text)), warnings) := by
  obtain ⟨opening, ending, children⟩ := region
  cases ending with
  | selfClosing => cases opened
  | unclosed => exact ⟨_, rfl⟩
  | closedBy tag => exact ⟨_, rfl⟩

/-- The content of a closed region is its body, whatever the length of the text. -/
theorem contentSpan?_eq_body (opened : region.isSelfClosing = false)
    (ended : region.ending ≠ .unclosed) (length : Nat) :
    region.contentSpan? = some (region.body length) := by
  obtain ⟨opening, ending, children⟩ := region
  cases ending with
  | selfClosing => cases opened
  | unclosed => exact absurd rfl ended
  | closedBy tag => rfl

end Content

/-- Names of scripts that end inside their scripts lie inside their scripts. -/
theorem scriptsStayInside {reader : Script.Reader} {options : Options} {text : List Char}
    (fits : width text ≤ Offset.limit)
    (scripts : EachScript reader options text fun script bindings =>
      ∀ binding ∈ bindings, binding.position ≤ width script) :
    ScriptsStayInside reader options text := by
  intro region member is found known script covers binding analyzed
  obtain ⟨content, warnings⟩ := found
  obtain ⟨opened, rfl, -⟩ := content?_eq_some known
  rw [Offset.cut_eq fits] at covers
  refine ⟨scripts region member is opened script covers binding analyzed, ?_⟩
  obtain ⟨identifier, category, -, rfl⟩ := Script.analyze_fromScript _ _ _ _ binding analyzed
  intro scope none
  cases none

/-- What reading a region by its kind can give. -/
inductive Reads (reader : Script.Reader) (text : List Char) (region : Region) (content : Span) :
    Table → Prop
  | nothing : Reads reader text region content empty
  | template (is : Section.ofRegion? region = some .template) :
      Reads reader text region content ⟨Template.names region, []⟩
  | script {script : List Char} (is : Section.ofRegion? region = some .script)
      (covers : content.slice? text = some script) :
      Reads reader text region content (scriptPart reader region content script)
  | style {style : List Char} (is : Section.ofRegion? region = some .style)
      (covers : content.slice? text = some style) :
      Reads reader text region content (stylePart content style)

/-- A region defines nothing, or what is read of it, with a warning when it has no end. -/
theorem part_cases (reader : Script.Reader) (options : Options) (text : List Char)
    (region : Region) :
    part reader options text region = empty ∨
      (region.isSelfClosing = false ∧ ∃ table,
        Reads reader text region (region.body (Offset.cut (width text))) table ∧
        part reader options text region = append ⟨[], if region.ending = .unclosed then
          [.unclosedRegion region.name region.tagSpan] else []⟩ table) := by
  unfold part
  cases enabled : (Section.ofRegion? region).filter options.enables with
  | none => exact .inl rfl
  | some kind =>
    have is := (Option.filter_eq_some_iff.1 enabled).1
    cases known : content? text region with
    | none => exact .inl rfl
    | some found =>
      obtain ⟨content, warnings⟩ := found
      obtain ⟨opened, rfl, rfl⟩ := content?_eq_some known
      refine .inr ⟨opened, _, ?_, rfl⟩
      generalize region.body (Offset.cut (width text)) = content
      cases kind with
      | template => exact .template is
      | script =>
        rw [contentPart]
        cases covers : content.slice? text with
        | none => exact .nothing
        | some script => exact .script is covers
      | style =>
        rw [contentPart]
        cases covers : content.slice? text with
        | none => exact .nothing
        | some style => exact .style is covers

/-- A region at the top level of a text introduces a binding. -/
inductive Introduces (reader : Script.Reader) (text : List Char) (region : Region) :
    Binding → Prop
  | template {element : Region} {binding : Binding} (tag : region.isTag "template" = true)
      (opened : region.isSelfClosing = false) (below : element ∈ region.descendants)
      (named : binding ∈ Template.elementNames element) : Introduces reader text region binding
  | script {script : List Char} {binding : Binding} (is : Section.ofRegion? region = some .script)
      (opened : region.isSelfClosing = false)
      (covers : (region.body (width text)).slice? text = some script)
      (analyzed : binding ∈
        (Script.analyze reader (languageOf region) (region.hasAttribute "setup") script).bindings) :
      Introduces reader text region (binding.move (region.body (width text)).start)
  | style {style : List Char} {binding : Binding} (tag : region.isTag "style" = true)
      (opened : region.isSelfClosing = false)
      (covers : (region.body (width text)).slice? text = some style)
      (scanned : binding ∈ Style.bindings style) :
      Introduces reader text region (binding.move (region.body (width text)).start)

section Part

variable {reader : Script.Reader} {options : Options} {text : List Char} {region : Region}
  {binding : Binding}

/-- What a region defines, it introduces. -/
theorem introduces_of_mem_part (fits : width text ≤ Offset.limit)
    (member : binding ∈ (part reader options text region).bindings) :
    Introduces reader text region binding := by
  rcases part_cases reader options text region with nothing | ⟨opened, table, reads, same⟩
  · rw [nothing] at member
    cases member
  · rw [same] at member
    rw [Offset.cut_eq fits] at reads
    cases reads with
    | nothing => cases member
    | template is =>
      obtain ⟨element, below, named⟩ := List.mem_flatMap.1 member
      exact .template (Section.isTag_of_ofRegion? is) opened below named
    | script is covers =>
      obtain ⟨given, analyzed, rfl⟩ := List.mem_map.1 member
      exact .script is opened covers analyzed
    | style is covers =>
      obtain ⟨given, scanned, rfl⟩ := List.mem_map.1 member
      exact .style (Section.isTag_of_ofRegion? is) opened covers scanned

/-- What a template defines when templates are read. -/
theorem part_of_template (enabled : options.template = true) (tag : region.isTag "template" = true)
    (opened : region.isSelfClosing = false) :
    (part reader options text region).bindings = Template.names region := by
  obtain ⟨warnings, known⟩ := exists_content? text opened
  have kind : (Section.ofRegion? region).filter options.enables = some .template := by
    rw [Section.ofRegion?_of_template tag]
    exact Option.filter_some_pos enabled
  rw [part, kind, known]
  rfl

end Part

/-- The bindings of tables in a row are those of each, in order. -/
theorem bindings_concat (tables : List Table) :
    (concat tables).bindings = tables.flatMap (·.bindings) := by
  induction tables with
  | nil => rfl
  | cons first more ih =>
    rw [concat_cons, List.flatMap_cons, ← ih]
    rfl

/-- The warnings of tables in a row are those of each, in order. -/
theorem warnings_concat (tables : List Table) :
    (concat tables).warnings = tables.flatMap (·.warnings) := by
  induction tables with
  | nil => rfl
  | cons first more ih =>
    rw [concat_cons, List.flatMap_cons, ← ih]
    rfl

/-- The bindings of a text are those of its regions, one region after the other. -/
theorem bindings_contents (reader : Script.Reader) (options : Options) (text : List Char) :
    (contents reader options text).bindings =
      (Region.tree options.rawTags text).children.flatMap
        fun region => (part reader options text region).bindings := by
  rw [contents, bindings_concat, List.flatMap_map]

end Table

end SfcIndex
