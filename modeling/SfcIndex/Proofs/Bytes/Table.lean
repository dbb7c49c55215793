import SfcIndex.Proofs.Bytes.Template
import SfcIndex.Proofs.Markup.Correspondence
import SfcIndex.Proofs.Markup.Reach
import SfcIndex.Proofs.Table.Introduced
import SfcIndex.Script.Read

/-! # The table of a file by bytes

Building a table by bytes, with every index, slice and sum on the way. When the text is shorter than
the limit of offsets and the names of scripts lie inside their scripts, nothing goes wrong: the
content of every region is there, and the table is the one of the text (`Bytes.build_eq`).
-/

namespace SfcIndex.Bytes

open Text Markup

/-- The span as many bytes later. -/
def shiftSpan (base : Nat) (span : Span) : Except Fault Span := do
  return ⟨← sum span.start base, ← sum span.stop base⟩

/-- The binding as many bytes later. -/
def shift (base : Nat) (binding : Binding) : Except Fault Binding := do
  let position ← sum binding.position base
  let scope ← binding.scope.mapM (shiftSpan base)
  return { binding with position, scope }

/-- The content of a region that has any, and the warning that it has no end. -/
def content? (text : List Char) (region : Region) :
    Except Fault (Option (Span × List Warning)) :=
  match region.contentStart? with
  | none => return none
  | some start =>
    match region.contentSpan? with
    | some content => return some (content, [])
    | none => do
      let stop ← toOffset (width text)
      return some (⟨start, stop⟩, [.unclosedRegion region.name region.tagSpan])

/-- What a region of a kind defines. -/
def ofContent (reader : Script.Reader) (text : List Char) (region : Region) (content : Span) :
    Section → Except Fault Table
  | .template => return ⟨← templateBindings text region, []⟩
  | .script => do
    let script ← covered text content
    let analysis :=
      Script.analyze reader (Table.languageOf region) (region.hasAttribute "setup") script
    let bindings ← analysis.bindings.mapM (shift content.start)
    return ⟨bindings, analysis.diagnostics.map (.scriptSyntax content) ++
      if analysis.isClass then [.classComponent content] else []⟩
  | .style => do
    let style ← covered text content
    return ⟨← (Style.bindings style).mapM (shift content.start), []⟩

/-- What a region at the top level of a file defines. -/
def ofRegion (reader : Script.Reader) (options : Options) (text : List Char) (region : Region) :
    Except Fault Table :=
  match (Section.ofRegion? region).filter options.enables with
  | none => return .empty
  | some kind => do
    match ← content? text region with
    | none => return .empty
    | some (content, warnings) =>
      return .append ⟨[], warnings⟩ (← ofContent reader text region content kind)

/-- The table of a file. -/
def build (reader : Script.Reader) (options : Options) (text : List Char) :
    Except Fault Table := do
  let document ← parse options.rawTags text
  return .concat (← document.children.mapM (ofRegion reader options text))

/-- A binding that stays below the limit is shifted without a fault. -/
theorem shift_eq {base : Nat} {binding : Binding}
    (below : (binding.move base).Below Offset.limit) :
    shift base binding = .ok (binding.move base) := by
  obtain ⟨name, category, position, scope⟩ := binding
  have first : position + base ≤ Offset.limit := below.1
  rw [shift, sum_eq first]
  cases scope with
  | none => rfl
  | some span =>
    obtain ⟨start, stop⟩ := below.2 (span.move base) rfl
    have moved : shiftSpan base span = .ok (span.move base) := by
      rw [shiftSpan, sum_eq start, sum_eq stop]
      rfl
    dsimp only [bind, Except.bind, Option.mapM]
    rw [moved]
    rfl

section

variable {reader : Script.Reader} {options : Options} {text : List Char} {region : Region}

/-- The content of a region is found without a fault. -/
theorem content?_eq (fits : width text ≤ Offset.limit) (region : Region) :
    content? text region = .ok (Table.content? text region) := by
  obtain ⟨opening, ending, children⟩ := region
  cases ending with
  | selfClosing => rfl
  | unclosed =>
    rw [content?, Table.content?, toOffset_eq fits, Offset.cut_eq fits]
    rfl
  | closedBy tag => rfl

/-- The content of a region is there in the text. -/
theorem exists_body {rawTags : List String} (fits : width text ≤ Offset.limit)
    (member : region ∈ (Region.tree rawTags text).children)
    (opened : region.isSelfClosing = false) :
    ∃ body, (region.body (width text)).slice? text = some body := by
  have known : region ∈ (Region.tree rawTags text).children.flatMap Region.descendants := by
    apply Template.mem_descendants_of_mem member
    rw [Region.descendants_eq]
    exact List.mem_cons_self
  cases is : region.ending with
  | selfClosing =>
    rw [Region.isSelfClosing, is] at opened
    cases opened
  | unclosed =>
    -- Without a closing tag the content is the rest of the text.
    have stop : (region.body (width text)).stop = width text := by
      rw [Region.body, Region.contentStop?, is]
      rfl
    obtain ⟨before, opening, after, whole, start, tag_stop⟩ := Region.tag_standsAt known
    refine ⟨after, Span.slice?_of_parts (before ++ opening) [] ?_ ?_ ?_⟩
    · rw [whole]
      simp
    · rw [width_append, ← start]
      exact tag_stop
    · have size := congrArg width whole
      rw [width_append, width_append] at size
      rw [stop]
      change width text = region.tagSpan.stop + width after
      omega
  | closedBy closing =>
    obtain ⟨tags, last, stop, pass, none, read, finished⟩ := Region.exists_pass rawTags fits
    have parts := (pass.tagsCorrespond fits none read finished).parts
    have content := Table.contentSpan?_eq_body opened (by simp [is]) (width text)
    rw [← Region.map_region_tail] at known
    obtain ⟨place, placed, rfl⟩ := List.mem_map.1 known
    obtain ⟨-, body, -, -, -, slice, -⟩ := parts place placed closing is
    rw [Region.content?, content] at slice
    exact ⟨body, slice⟩

/-- Bindings that stay below the limit are shifted without a fault. -/
theorem mapM_shift_eq {base : Nat} {bindings : List Binding}
    (below : ∀ binding ∈ bindings.map (·.move base), binding.Below Offset.limit) :
    bindings.mapM (shift base) = .ok (bindings.map (·.move base)) := by
  apply Offset.mapM_eq_ok
  intro binding member
  exact shift_eq (below _ (List.mem_map_of_mem member))

/-- What a region of a kind defines is found by bytes. -/
theorem ofContent_eq {rawTags : List String} (fits : width text ≤ Offset.limit)
    (member : region ∈ (Region.tree rawTags text).children)
    (opened : region.isSelfClosing = false) {kind : Section}
    (below : (Table.contentPart reader text region (region.body (width text)) kind).Below
      Offset.limit) :
    ofContent reader text region (region.body (width text)) kind =
      .ok (Table.contentPart reader text region (region.body (width text)) kind) := by
  obtain ⟨body, covers⟩ := exists_body fits member opened
  have taken : covered text (region.body (width text)) = .ok body := by rw [covered, covers]
  cases kind with
  | template =>
    rw [ofContent, templateBindings_eq fits member]
    rfl
  | script =>
    rw [Table.contentPart, covers] at below ⊢
    rw [ofContent, taken]
    dsimp only [bind, Except.bind]
    rw [mapM_shift_eq below]
    rfl
  | style =>
    rw [Table.contentPart, covers] at below ⊢
    rw [ofContent, taken]
    dsimp only [bind, Except.bind]
    rw [mapM_shift_eq below]
    rfl

/-- A region gives its part of the table without a fault when that lies below the limit. -/
theorem ofRegion_eq (fits : width text ≤ Offset.limit)
    (member : region ∈ (Region.tree options.rawTags text).children)
    (below : (Table.part reader options text region).Below Offset.limit) :
    ofRegion reader options text region = .ok (Table.part reader options text region) := by
  unfold ofRegion
  unfold Table.part at below ⊢
  cases enabled : (Section.ofRegion? region).filter options.enables with
  | none => rfl
  | some kind =>
    dsimp only
    rw [content?_eq fits]
    cases known : Table.content? text region with
    | none => rfl
    | some found =>
      obtain ⟨content, warnings⟩ := found
      obtain ⟨opened, rfl, -⟩ := Table.content?_eq_some known
      rw [enabled, known] at below
      rw [Offset.cut_eq fits] at below ⊢
      dsimp only [bind, Except.bind]
      rw [ofContent_eq fits member opened (Table.below_append.1 below).2]
      rfl

/-- Building by bytes gives what a text defines. -/
theorem build_eq (reader : Script.Reader) (options : Options) (fits : width text ≤ Offset.limit)
    (scripts : Table.ScriptsStayInside reader options text) :
    build reader options text = .ok (Table.contents reader options text) := by
  have regions : (Region.tree options.rawTags text).children.mapM (ofRegion reader options text) =
      .ok ((Region.tree options.rawTags text).children.map (Table.part reader options text)) := by
    apply Offset.mapM_eq_ok
    intro region member
    exact ofRegion_eq fits member ((Table.below_part scripts member).mono fits)
  rw [build, parse_eq options.rawTags fits]
  dsimp only [bind, Except.bind]
  rw [regions]
  rfl

end

/-- Building the table of a text by bytes goes through, and what is read on the way is there. -/
structure BuildsWithoutFault (reader : Script.Reader) (options : Options) (text : List Char) :
    Prop where
  /-- No index, slice or sum goes wrong, some element is open at every tag, and the table is the one
  that is built by characters. -/
  built : ∃ table, build reader options text = .ok table ∧
    Table.build reader options text = .ok table
  /-- The attributes of every tag that is read are there in the text. -/
  attributes : ∀ earlier builder scanner, Region.Run options.rawTags text earlier builder scanner →
    ∀ tag next, scanner.nextTag = .ok (some tag, next) →
      tag.attributeSpan.slice? text = some tag.attributeText
  /-- The value of every attribute is there in the text. -/
  values : ∀ document, Region.parse options.rawTags text = .ok document →
    ∀ region ∈ document.descendants, ∀ found ∈ region.attributes, ∀ value ∈ found.value,
      value.span.slice? text = some value.text.toList
  /-- The content of every region at the top level is there in the text. -/
  contents : ∀ document, Region.parse options.rawTags text = .ok document →
    ∀ region ∈ document.children, ∀ content ∈ Table.content? text region,
      ∃ part, content.1.slice? text = some part

/-- Building a table never goes wrong in a text that is shorter than the limit of offsets, if the
names of scripts lie inside their scripts. -/
theorem buildsWithoutFault (reader : Script.Reader) (options : Options) {text : List Char}
    (fits : width text ≤ Offset.limit)
    (scripts : Table.EachScript reader options text fun script bindings =>
      ∀ binding ∈ bindings, binding.position ≤ width script) :
    BuildsWithoutFault reader options text where
  built := by
    have inside := Table.scriptsStayInside fits scripts
    have below := (Table.below_contents inside).mono fits
    exact ⟨_, build_eq reader options fits inside,
      (Table.build_gives reader options fits).eq_ok below⟩
  attributes := by
    intro earlier builder scanner run tag next given
    obtain ⟨cursor, rfl, pass⟩ := run.exists_pass fits
    have below := pass.on.offset_add_width
    cases found : cursor.nextTag? with
    | none =>
      rw [Scanner.nextTag_of_none found] at given
      cases given
    | some reading =>
      rw [Scanner.nextTag_of_some (by omega) found] at given
      cases given
      exact (slice?_attributeSpan pass.on found).1
  values := by
    intro document parsed region member found carries value is
    rw [Region.eq_tree_of_parse fits parsed, Region.descendants_eq] at member
    rcases List.mem_cons.1 member with rfl | below
    · cases carries
    · exact slice?_value below carries is
  contents := by
    intro document parsed region member content known
    rw [Region.eq_tree_of_parse fits parsed] at member
    obtain ⟨opened, is, -⟩ := Table.content?_eq_some known
    rw [is, Offset.cut_eq fits]
    exact exists_body fits member opened

/-- So it is with letters of more than one byte, a comment, raw text and a style without an end. -/
theorem buildsWithoutFault_unclosed :
    let text := ("<template>é<u v-for='(ö,$i) of b' ref=é/></template><!--ß-->" ++
      "<script setup>let ä,b='</i>'</script><style é>.ü\x7b</style ").toList
    width text ≤ Offset.limit ∧
      (Table.EachScript Script.read {} text fun script bindings =>
        ∀ binding ∈ bindings, binding.position ≤ width script) ∧
      BuildsWithoutFault Script.read {} text ∧
      ∃ table, build Script.read {} text = .ok table ∧
        table.bindings.map (·.name) = ["$i", "é", "ä", "b", "ü"] := by
  intro text
  have fits : width text ≤ Offset.limit := by decide +kernel
  have scripts : Table.EachScript Script.read {} text fun script bindings =>
      ∀ binding ∈ bindings, binding.position ≤ width script := by decide +kernel
  have names : (Table.contents Script.read {} text).bindings.map (·.name) =
      ["$i", "é", "ä", "b", "ü"] := by decide +kernel
  have safe := buildsWithoutFault Script.read {} fits scripts
  obtain ⟨table, built, same⟩ := safe.built
  rw [← Table.eq_contents_of_build fits same] at names
  exact ⟨fits, scripts, safe, table, built, names⟩

end SfcIndex.Bytes
