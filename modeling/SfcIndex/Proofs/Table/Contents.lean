import SfcIndex.Proofs.Style.Scan
import SfcIndex.Proofs.Table.Template
import SfcIndex.Table

/-! # Tables without a limit on offsets

`Table.contents` is what a text defines, with offsets of any size. For a text that ends below the
limit, building its table gives these contents, unless a name of a script lies too far behind its
script (`Table.build_gives`).
-/

namespace SfcIndex

open Text Markup

/-- A span is shifted when both of its ends stay offsets. -/
theorem Span.shift_gives (span : Span) (base : Nat) :
    Offset.Gives (span.shift base)
      (span.start + base ≤ Offset.limit ∧ span.stop + base ≤ Offset.limit) (span.move base) := by
  have stop := Offset.gives_add span.stop base
  exact (Offset.gives_add span.start base).bind (stop.map _)

/-- A binding is shifted when it stays below the limit. -/
theorem Binding.shift_gives (binding : Binding) (base : Nat) :
    Offset.Gives (binding.shift base) ((binding.move base).Below Offset.limit)
      (binding.move base) := by
  obtain ⟨name, category, position, scope⟩ := binding
  have moved := Offset.gives_add position base
  cases scope with
  | none => exact (moved.map _).congr (by simp [Binding.Below, Binding.move])
  | some span =>
    have shifted := span.shift_gives base
    refine (moved.bind ((shifted.map some).map _)).congr ?_
    simp [Binding.Below, Binding.move, Span.move]

/-- The names of a style lie in the style. -/
theorem Style.below_of_mem_bindings {text : List Char} {binding : Binding}
    (member : binding ∈ Style.bindings text) : binding.Below (width text) := by
  obtain ⟨start, sigil, selects⟩ := Style.selects_of_mem_scan member
  have inside := selects.stands.stop_le
  refine ⟨by rw [selects.position]; omega, ?_⟩
  intro scope is
  rw [selects.unlimited] at is
  cases is

namespace Table

/-- Whether the offsets of all bindings stay below a limit. -/
def Below (limit : Nat) (table : Table) : Prop := ∀ binding ∈ table.bindings, binding.Below limit

theorem Below.mono {limit limit' : Nat} {table : Table} (below : table.Below limit)
    (larger : limit ≤ limit') : table.Below limit' :=
  fun binding member => (below binding member).mono larger

/-- What a script with the given content defines. -/
def scriptPart (reader : Script.Reader) (region : Region) (content : Span) (text : List Char) :
    Table :=
  let analysis := Script.analyze reader (languageOf region) (region.hasAttribute "setup") text
  ⟨analysis.bindings.map (·.move content.start),
    analysis.diagnostics.map (.scriptSyntax content) ++
      if analysis.isClass then [.classComponent content] else []⟩

/-- What a style with the given content defines. -/
def stylePart (content : Span) (text : List Char) : Table :=
  ⟨(Style.bindings text).map (·.move content.start), []⟩

/-- What a region of a kind defines. -/
def contentPart (reader : Script.Reader) (text : List Char) (region : Region) (content : Span) :
    Section → Table
  | .template => ⟨Template.names region, []⟩
  | .script => (content.slice? text).elim empty (scriptPart reader region content)
  | .style => (content.slice? text).elim empty (stylePart content)

/-- What a region at the top level of a file defines. -/
def part (reader : Script.Reader) (options : Options) (text : List Char) (region : Region) :
    Table :=
  match (Section.ofRegion? region).filter options.enables, content? text region with
  | some kind, some (content, warnings) =>
    append ⟨[], warnings⟩ (contentPart reader text region content kind)
  | _, _ => empty

/-- What a text defines. -/
def contents (reader : Script.Reader) (options : Options) (text : List Char) : Table :=
  concat ((Region.tree options.rawTags text).children.map (part reader options text))

section Checked

variable {reader : Script.Reader} {options : Options} {text : List Char} {region : Region}

/-- Bindings are shifted when all of them stay below the limit. -/
theorem mapM_shift_gives (bindings : List Binding) (base : Nat) :
    Offset.Gives (bindings.mapM (·.shift base))
      (∀ binding ∈ bindings.map (·.move base), binding.Below Offset.limit)
      (bindings.map (·.move base)) :=
  (Offset.Gives.mapM fun binding _ => binding.shift_gives base).congr (by simp)

/-- A script gives its part of the table when that lies below the limit. -/
theorem ofScript_gives (reader : Script.Reader) (region : Region) (content : Span)
    (text : List Char) :
    Offset.Gives (ofScript reader region content text)
      ((scriptPart reader region content text).Below Offset.limit)
      (scriptPart reader region content text) :=
  (mapM_shift_gives _ content.start).map _

/-- A style gives its part of the table when that lies below the limit. -/
theorem ofStyle_gives (content : Span) (text : List Char) :
    Offset.Gives (ofStyle content text) ((stylePart content text).Below Offset.limit)
      (stylePart content text) :=
  (mapM_shift_gives _ content.start).map _

/-- A table without bindings lies below every limit. -/
theorem below_of_nil (limit : Nat) (warnings : List Warning) : Below limit ⟨[], warnings⟩ := by
  intro binding member
  cases member

theorem gives_empty : Offset.Gives (.ok empty) (empty.Below Offset.limit) empty :=
  (Offset.Gives.ok empty).congr (iff_of_true trivial (below_of_nil _ _))

/-- The content of a region gives its part of the table when that lies below the limit. -/
theorem ofContent_gives (fits : width text ≤ Offset.limit)
    (member : region ∈ (Region.tree options.rawTags text).children) (content : Span)
    (kind : Section) :
    Offset.Gives (ofContent reader text region content kind)
      ((contentPart reader text region content kind).Below Offset.limit)
      (contentPart reader text region content kind) := by
  cases kind with
  | template =>
    have below : (contentPart reader text region content .template).Below Offset.limit := by
      intro binding named
      exact (Template.below_of_mem_names member named).mono fits
    rw [ofContent, Template.bindings_eq_ok fits member]
    exact (Offset.Gives.ok _).congr (iff_of_true trivial below)
  | script =>
    rw [ofContent, contentPart]
    cases content.slice? text with
    | none => exact gives_empty
    | some inside => exact ofScript_gives reader region content inside
  | style =>
    rw [ofContent, contentPart]
    cases content.slice? text with
    | none => exact gives_empty
    | some inside => exact ofStyle_gives content inside

theorem below_append {limit : Nat} {first second : Table} :
    (first.append second).Below limit ↔ first.Below limit ∧ second.Below limit := by
  simp only [Below, append, List.mem_append, or_imp, forall_and]

/-- A region gives its part of the table when that lies below the limit. -/
theorem ofRegion_gives (fits : width text ≤ Offset.limit)
    (member : region ∈ (Region.tree options.rawTags text).children) :
    Offset.Gives (ofRegion reader options text region)
      ((part reader options text region).Below Offset.limit) (part reader options text region) := by
  unfold ofRegion part
  cases (Section.ofRegion? region).filter options.enables with
  | none => exact gives_empty
  | some kind =>
    cases content? text region with
    | none => exact gives_empty
    | some found =>
      obtain ⟨content, warnings⟩ := found
      refine ((ofContent_gives fits member content kind).map _).congr ?_
      rw [below_append, and_iff_right (below_of_nil _ _)]

/-- Reading a content gives what the region defines or fails, however long the text is. -/
theorem ofContent_only (reader : Script.Reader) (text : List Char) (region : Region)
    (content : Span) (kind : Section) :
    Offset.Only (ofContent reader text region content kind)
      (contentPart reader text region content kind) := by
  cases kind with
  | template => exact (Template.bindings_only region).map fun named => (⟨named, []⟩ : Table)
  | script =>
    rw [ofContent, contentPart]
    cases content.slice? text with
    | none => exact .ok empty
    | some inside => exact (ofScript_gives reader region content inside).only
  | style =>
    rw [ofContent, contentPart]
    cases content.slice? text with
    | none => exact .ok empty
    | some inside => exact (ofStyle_gives content inside).only

/-- Reading a region gives what the region defines or fails, however long the text is. -/
theorem ofRegion_only (reader : Script.Reader) (options : Options) (text : List Char)
    (region : Region) :
    Offset.Only (ofRegion reader options text region) (part reader options text region) := by
  unfold ofRegion part
  cases (Section.ofRegion? region).filter options.enables with
  | none => exact .ok empty
  | some kind =>
    cases content? text region with
    | none => exact .ok empty
    | some found =>
      obtain ⟨content, warnings⟩ := found
      exact (ofContent_only reader text region content kind).map (append ⟨[], warnings⟩)

/-- Below the limit the table of a text is what the text defines. -/
theorem eq_contents_of_build {table : Table} (fits : width text ≤ Offset.limit)
    (built : build reader options text = .ok table) : table = contents reader options text := by
  obtain ⟨document, parsed, collected⟩ := Offset.exists_of_bind built
  rw [Region.eq_tree_of_parse fits parsed] at collected
  exact (Offset.Only.mapM fun region _ => ofRegion_only reader options text region).map concat _
    collected

theorem concat_cons (first : Table) (more : List Table) :
    concat (first :: more) = first.append (concat more) := rfl

/-- Tables in a row lie below a limit when all do. -/
theorem below_concat {limit : Nat} {tables : List Table} :
    (concat tables).Below limit ↔ ∀ table ∈ tables, table.Below limit := by
  induction tables with
  | nil => exact iff_of_true (below_of_nil limit []) (by simp)
  | cons first more ih =>
    rw [concat_cons, below_append, ih, List.forall_mem_cons]

/-- Building the table of a text that ends below the limit gives what the text defines, if all
offsets of it stay below the limit. -/
theorem build_gives (reader : Script.Reader) (options : Options)
    (fits : width text ≤ Offset.limit) :
    Offset.Gives (build reader options text) ((contents reader options text).Below Offset.limit)
      (contents reader options text) := by
  have each : ∀ region ∈ (Region.tree options.rawTags text).children,
      Offset.Gives (ofRegion reader options text region)
        ((part reader options text region).Below Offset.limit) (part reader options text region) :=
    fun region member => ofRegion_gives fits member
  rw [build, Region.parse_eq_ok options.rawTags fits]
  refine ((Offset.Gives.mapM each).map concat).congr ?_
  rw [contents, below_concat, List.forall_mem_map]

end Checked

section Bounds

variable {reader : Script.Reader} {options : Options} {text : List Char} {region : Region}

/-- Every name of a script at the top level of a text lies inside the script. -/
def ScriptsStayInside (reader : Script.Reader) (options : Options) (text : List Char) : Prop :=
  ∀ region ∈ (Region.tree options.rawTags text).children,
    Section.ofRegion? region = some .script →
      ∀ found ∈ content? text region, ∀ script ∈ found.1.slice? text,
        ∀ binding ∈ (Script.analyze reader (languageOf region) (region.hasAttribute "setup")
            script).bindings,
          binding.Below (width script)

instance (reader : Script.Reader) (options : Options) (text : List Char) :
    Decidable (ScriptsStayInside reader options text) :=
  inferInstanceAs (Decidable (∀ region ∈ (Region.tree options.rawTags text).children, _))

/-- Bindings of a part of a text, moved to where the part starts, stay in the text. -/
theorem below_move_of_slice? {content : Span} {inside : List Char} {binding : Binding}
    (covers : content.slice? text = some inside) (below : binding.Below (width inside)) :
    (binding.move content.start).Below (width text) := by
  obtain ⟨before, after, rfl, start, stop⟩ := Span.slice?_eq_some_iff.1 covers
  simp only [width_append]
  refine ⟨?_, ?_⟩
  · have := below.1
    dsimp only [Binding.move]
    omega
  · intro scope is
    obtain ⟨given, known, rfl⟩ := Option.map_eq_some_iff.1 is
    have := below.2 given known
    dsimp only [Span.move]
    omega

/-- The part of a table that a region gives lies inside the text. -/
theorem below_part (scripts : ScriptsStayInside reader options text)
    (member : region ∈ (Region.tree options.rawTags text).children) :
    (part reader options text region).Below (width text) := by
  unfold part
  cases enabled : (Section.ofRegion? region).filter options.enables with
  | none => exact below_of_nil _ _
  | some kind =>
    have is := (Option.filter_eq_some_iff.1 enabled).1
    cases known : content? text region with
    | none => exact below_of_nil _ _
    | some found =>
      obtain ⟨content, warnings⟩ := found
      refine below_append.2 ⟨below_of_nil _ _, ?_⟩
      cases kind with
      | template => exact fun binding named => Template.below_of_mem_names member named
      | script =>
        rw [contentPart]
        cases covers : content.slice? text with
        | none => exact below_of_nil _ _
        | some script =>
          refine List.forall_mem_map.2 fun binding analyzed => ?_
          exact below_move_of_slice? covers
            (scripts region member is _ known script covers binding analyzed)
      | style =>
        rw [contentPart]
        cases covers : content.slice? text with
        | none => exact below_of_nil _ _
        | some style =>
          refine List.forall_mem_map.2 fun binding scanned => ?_
          exact below_move_of_slice? covers (Style.below_of_mem_bindings scanned)

/-- What a text defines lies in the text, if the names of scripts lie inside their scripts. -/
theorem below_contents (scripts : ScriptsStayInside reader options text) :
    (contents reader options text).Below (width text) := by
  rw [contents, below_concat, List.forall_mem_map]
  exact fun region member => below_part scripts member

end Bounds

end Table

end SfcIndex
