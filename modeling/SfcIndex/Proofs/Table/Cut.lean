import SfcIndex.Proofs.Markup.Cut
import SfcIndex.Proofs.Table.Contents
import SfcIndex.Script.Read

/-! # Tables of texts that are cut where nothing is open

What a text with a clean cut defines is what the text in front of the cut defines and then, moved,
what the text behind it defines.
-/

namespace SfcIndex

open Text Markup

/-- The warning about a region as many bytes later. -/
def Warning.move (bytes : Nat) : Warning → Warning
  | scriptSyntax region message => scriptSyntax (region.move bytes) message
  | classComponent region => classComponent (region.move bytes)
  | unclosedRegion name region => unclosedRegion name (region.move bytes)
  | unsupportedDocument path expected => unsupportedDocument path expected

namespace Table

/-- The table of a text that stands as many bytes later. -/
def move (bytes : Nat) (table : Table) : Table :=
  ⟨table.bindings.map (·.move bytes), table.warnings.map (·.move bytes)⟩

/-- The table of a text, rebased to the file that holds the text at `base`. -/
def shift (table : Table) (base : Nat) : Except OffsetError Table := do
  return ⟨← table.bindings.mapM (·.shift base), table.warnings.map (·.move base)⟩

/-- A table is shifted when it stays below the limit. -/
theorem shift_gives (table : Table) (base : Nat) :
    Offset.Gives (table.shift base) ((table.move base).Below Offset.limit) (table.move base) :=
  (mapM_shift_gives table.bindings base).map _

section Move

variable (bytes ids : Nat) {reader : Script.Reader}

theorem append_move (first second : Table) :
    (first.append second).move bytes = (first.move bytes).append (second.move bytes) := by
  simp [append, move]

/-- Tables in a row are moved one by one. -/
theorem concat_move (tables : List Table) :
    (concat tables).move bytes = concat (tables.map (·.move bytes)) := by
  induction tables with
  | nil => rfl
  | cons first more ih => rw [List.map_cons, concat_cons, concat_cons, append_move, ih]

theorem concat_append (first second : List Table) :
    concat (first ++ second) = (concat first).append (concat second) := by
  induction first with
  | nil => rfl
  | cons table more ih =>
    rw [List.cons_append, concat_cons, concat_cons, ih]
    simp [append]

/-- Moving bindings twice is moving them by the sum. -/
theorem map_move_move (bindings : List Binding) (base : Nat) :
    bindings.map (·.move (base + bytes)) = (bindings.map (·.move base)).map (·.move bytes) := by
  rw [List.map_map]
  congr 1
  funext binding
  exact (Binding.move_move base bytes binding).symm

/-- A script that stands further back gives its names further back. -/
theorem scriptPart_move (region : Region) (content : Span) (text : List Char) :
    scriptPart reader (region.move bytes ids) (content.move bytes) text =
      (scriptPart reader region content text).move bytes := by
  have language : languageOf (region.move bytes ids) = languageOf region := by
    rw [languageOf, languageOf, Region.attribute?_move]
    cases region.attribute? "lang" with
    | none => rfl
    | some found =>
      obtain ⟨key, keySpan, value⟩ := found
      cases value <;> rfl
  have setup : (region.move bytes ids).hasAttribute "setup" = region.hasAttribute "setup" := by
    rw [Region.hasAttribute, Region.hasAttribute, Region.attribute?_move, Option.isSome_map]
  have warnings : ∀ (flag : Bool) (warning : Warning),
      (if flag then [warning.move bytes] else []) =
        (if flag then [warning] else []).map (·.move bytes) := by
    intro flag warning
    cases flag <;> rfl
  rw [scriptPart, scriptPart, language, setup, move, List.map_append, ← warnings, ← map_move_move,
    List.map_map]
  rfl

theorem stylePart_move (content : Span) (text : List Char) :
    stylePart (content.move bytes) text = (stylePart content text).move bytes := by
  rw [stylePart, stylePart, move, Span.move, map_move_move]
  rfl

/-- The content of a moved region is moved; without a closing tag it reaches to the end of the
text. -/
theorem content?_move {front rest : List Char} (fits : width (front ++ rest) ≤ Offset.limit)
    (region : Region) :
    content? (front ++ rest) (region.move (width front) ids) =
      (content? rest region).map fun found =>
        (found.1.move (width front), found.2.map (·.move (width front))) := by
  obtain ⟨opening, ending, children⟩ := region
  rw [Region.move]
  cases ending with
  | selfClosing => rfl
  | closedBy tag => rfl
  | unclosed =>
    have size : width (front ++ rest) = width rest + width front := by
      rw [width_append, Nat.add_comm]
    rw [size] at fits
    simp only [content?, size, Offset.cut_eq fits, Offset.cut_eq (Nat.le_of_add_right_le fits)]
    rfl

/-- The content of a region behind more text gives what it gives on its own, moved. -/
theorem contentPart_move (front rest : List Char) (region : Region) (content : Span)
    (kind : Section) :
    contentPart reader (front ++ rest) (region.move (width front) ids) (content.move (width front))
        kind =
      (contentPart reader rest region content kind).move (width front) := by
  cases kind with
  | template =>
    rw [contentPart, contentPart, Template.names_move]
    rfl
  | script =>
    rw [contentPart, contentPart, Span.slice?_move]
    cases content.slice? rest with
    | none => rfl
    | some inside => exact scriptPart_move _ ids region content inside
  | style =>
    rw [contentPart, contentPart, Span.slice?_move]
    cases content.slice? rest with
    | none => rfl
    | some inside => exact stylePart_move _ content inside

/-- What a moved region defines is moved. -/
theorem part_move (options : Options) {front rest : List Char}
    (fits : width (front ++ rest) ≤ Offset.limit) (region : Region) :
    part reader options (front ++ rest) (region.move (width front) ids) =
      (part reader options rest region).move (width front) := by
  have section? : Section.ofRegion? (region.move (width front) ids) = Section.ofRegion? region := by
    have name : (region.move (width front) ids).name = region.name := by
      rw [Region.name, Region.opening_move]
      rfl
    simp only [Section.ofRegion?, Region.isTag, name]
  rw [part, part, section?, content?_move ids fits]
  cases (Section.ofRegion? region).filter options.enables with
  | none => rfl
  | some kind =>
    cases content? rest region with
    | none => rfl
    | some found =>
      obtain ⟨content, warnings⟩ := found
      simp only [Option.map_some, contentPart_move, append_move]
      rfl

end Move

section Cut

variable {reader : Script.Reader} {options : Options} {front rest : List Char}

/-- What a closed region in front of a cut defines does not depend on the text behind the cut. -/
theorem part_append {region : Region}
    (member : region ∈ (Region.tree options.rawTags front).children)
    (closed : region.ending ≠ .unclosed) (rest : List Char) :
    part reader options (front ++ rest) region = part reader options front region := by
  have same : content? (front ++ rest) region = content? front region := by
    obtain ⟨opening, ending, children⟩ := region
    cases ending with
    | selfClosing => rfl
    | closedBy tag => rfl
    | unclosed => exact absurd rfl closed
  have inside : ∀ content warnings, content? front region = some (content, warnings) →
      content.slice? (front ++ rest) = content.slice? front := by
    intro content warnings found
    refine Span.slice?_append_of_le (Region.content_stop_le member ?_) rest
    obtain ⟨opening, ending, children⟩ := region
    cases ending with
    | selfClosing => cases found
    | closedBy tag =>
      cases found
      rfl
    | unclosed => exact absurd rfl closed
  rw [part, part, same]
  cases (Section.ofRegion? region).filter options.enables with
  | none => rfl
  | some kind =>
    cases found : content? front region with
    | none => rfl
    | some known =>
      obtain ⟨content, warnings⟩ := known
      dsimp only
      cases kind with
      | template => rfl
      | script => rw [contentPart, contentPart, inside content warnings found]
      | style => rw [contentPart, contentPart, inside content warnings found]

/-- What a text with a clean cut defines. -/
theorem contents_of_tagsCut (fits : width (front ++ rest) ≤ Offset.limit)
    (cut : Region.TagsCut options.rawTags front rest) :
    contents reader options (front ++ rest) =
      (contents reader options front).append
        ((contents reader options rest).move (width front)) := by
  obtain ⟨ids, children⟩ := cut.children_tree
  have inFront : (Region.tree options.rawTags front).children.map
        (part reader options (front ++ rest)) =
      (Region.tree options.rawTags front).children.map (part reader options front) :=
    List.map_congr_left fun region member => part_append member (cut.ending_ne_unclosed member) rest
  have behind : ((Region.tree options.rawTags rest).children.map
      (·.move (width front) ids)).map (part reader options (front ++ rest)) =
      ((Region.tree options.rawTags rest).children.map (part reader options rest)).map
        (·.move (width front)) := by
    rw [List.map_map, List.map_map]
    congr 1
    funext region
    exact part_move ids options fits region
  rw [contents, children, List.map_append, inFront, behind, concat_append, contents, contents,
    concat_move]

/-- A table lies below a limit when it does after it was moved on. -/
theorem below_of_move {bytes limit : Nat} {table : Table} (below : (table.move bytes).Below limit) :
    table.Below limit := by
  intro binding member
  obtain ⟨position, scopes⟩ := below (binding.move bytes) (List.mem_map_of_mem member)
  refine ⟨Nat.le_trans (Nat.le_add_right _ _) position, ?_⟩
  intro scope is
  have moved : (binding.move bytes).scope = some (scope.move bytes) := by
    rw [Binding.move, is]
    rfl
  obtain ⟨start, stop⟩ := scopes _ moved
  exact ⟨Nat.le_trans (Nat.le_add_right _ _) start, Nat.le_trans (Nat.le_add_right _ _) stop⟩

/-- The table of a text with a clean cut is built from the tables of its two parts: first come the
bindings and warnings of the part in front, then those of the part behind, moved by as many bytes as
stand in front of it. Building succeeds when the names of scripts lie inside their scripts. -/
theorem build_of_cleanCut (reader : Script.Reader) (options : Options) {front rest : List Char}
    (fits : width (front ++ rest) ≤ Offset.limit)
    (cut : Region.CleanCut options.rawTags front rest) :
    (build reader options (front ++ rest) = do
      let first ← build reader options front
      let second ← build reader options rest
      return first.append (← second.shift (width front))) ∧
    (ScriptsStayInside reader options (front ++ rest) →
      ∃ table, build reader options (front ++ rest) = .ok table) := by
  have size := width_append front rest
  have fitsFront : width front ≤ Offset.limit := by omega
  have fitsRest : width rest ≤ Offset.limit := by omega
  have whole := build_gives reader options fits
  refine ⟨?_, fun scripts => ⟨_, whole.eq_ok ((below_contents scripts).mono fits)⟩⟩
  have first := build_gives reader options fitsFront
  have second := build_gives reader options fitsRest
  have moved := shift_gives (contents reader options rest) (width front)
  rw [contents_of_tagsCut fits (cut.tagsCut fits)] at whole
  refine whole.unique ((first.bind (second.bind (moved.map _))).congr ?_)
  rw [below_append]
  constructor
  · exact fun below => ⟨below.1, below.2.2⟩
  · exact fun below => ⟨below.1, below_of_move below.2, below.2⟩

/-- So it is when a script and a style without an end come behind a template. -/
theorem build_of_cleanCut_unclosed :
    let front := "<template><i ref='x'/></template>".toList
    let rest := "<script setup>let y</script><style>.a\x7b".toList
    width (front ++ rest) ≤ Offset.limit ∧
      Region.CleanCut ({} : Options).rawTags front rest ∧
      ScriptsStayInside Script.read {} (front ++ rest) ∧
      (build Script.read {} (front ++ rest) = do
        let first ← build Script.read {} front
        let second ← build Script.read {} rest
        return first.append (← second.shift (width front))) ∧
      ∃ table, build Script.read {} (front ++ rest) = .ok table := by
  intro front rest
  have fits : width (front ++ rest) ≤ Offset.limit := by decide
  have scripts : ScriptsStayInside Script.read {} (front ++ rest) := by decide +kernel
  have cut : Region.CleanCut ({} : Options).rawTags front rest := by
    let earlier : List Tag :=
      [⟨.opening, "template", ⟨0, 10⟩, ⟨9, 9⟩, []⟩,
        ⟨.selfClosing, "i", ⟨10, 22⟩, ⟨12, 20⟩, " ref='x'".toList⟩]
    let tag : Tag := ⟨.closing, "template", ⟨22, 33⟩, ⟨32, 32⟩, []⟩
    let later := (Region.tags ({} : Options).rawTags (.atStart (front ++ rest))).drop 3
    have tagsCut : Region.TagsCut ({} : Options).rawTags front rest :=
      ⟨earlier, tag, later, by decide +kernel, rfl, List.isEmpty_iff.1 (by decide +kernel)⟩
    exact tagsCut.cleanCut fits
  exact ⟨fits, cut, scripts, (build_of_cleanCut Script.read {} fits cut).1,
    (build_of_cleanCut Script.read {} fits cut).2 scripts⟩

end Cut

end Table

end SfcIndex
