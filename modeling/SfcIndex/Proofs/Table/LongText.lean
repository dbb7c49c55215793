import SfcIndex.Proofs.Markup.LongText
import SfcIndex.Proofs.Table.Introduced

/-! # Tables of texts past the limit of offsets

The table of a text that is one template without an end is what the template declares
(`Table.build_of_template`). In `loopText` the scope of a loop ends in front of the content of the
loop (`Table.build_loopText`).
-/

namespace SfcIndex.Table

open Text Markup

section Plain

variable {reader : Script.Reader} {options : Options} {text : List Char}

/-- A region of no kind defines nothing. -/
theorem ofRegion_plain {region : Region} (plain : Section.ofRegion? region = none) :
    ofRegion reader options text region = .ok empty := by
  rw [ofRegion, plain]
  rfl

/-- Regions of no kind define nothing together. -/
theorem mapM_ofRegion_plain {regions : List Region}
    (plain : ∀ region ∈ regions, Section.ofRegion? region = none) :
    regions.mapM (ofRegion reader options text) = .ok (regions.map fun _ => empty) :=
  Offset.mapM_eq_ok fun region member => ofRegion_plain (plain region member)

/-- Regions of no kind in front of other tables add nothing to them. -/
theorem concat_plain (regions : List Region) (tables : List Table) :
    concat (regions.map (fun _ => empty) ++ tables) = concat tables := by
  induction regions with
  | nil => rfl
  | cons region more ih =>
    rw [List.map_cons, List.cons_append, concat_cons, ih]
    rfl

/-- A text with regions of no kind only defines nothing. -/
theorem build_of_plain {document : Region}
    (parsed : Region.parse options.rawTags text = .ok document)
    (plain : ∀ region ∈ document.children, Section.ofRegion? region = none) :
    build reader options text = .ok empty := by
  have nothing := concat_plain document.children []
  rw [List.append_nil] at nothing
  rw [build, parsed]
  change (document.children.mapM (ofRegion reader options text)).bind _ = _
  rw [mapM_ofRegion_plain plain]
  exact congrArg Except.ok nothing

end Plain

/-- The table of a text with nothing but a template at its end, which is not closed, is what the
template declares. -/
theorem build_of_template (reader : Script.Reader) {options : Options} {text : List Char}
    {document template : Region} {bindings : List Binding}
    (parsed : Region.parse options.rawTags text = .ok document)
    (ends : document.children.getLast? = some template)
    (plain : ∀ region ∈ document.children.dropLast, Section.ofRegion? region = none)
    (enabled : (Section.ofRegion? template).filter options.enables = some .template)
    (unclosed : template.ending = .unclosed)
    (declares : Template.bindings template = .ok bindings) :
    build reader options text =
      .ok ⟨bindings, [.unclosedRegion template.name template.tagSpan]⟩ := by
  have opened : template.isSelfClosing = false := by rw [Region.isSelfClosing, unclosed]; rfl
  obtain ⟨warnings, known⟩ := exists_content? text opened
  obtain ⟨-, -, rfl⟩ := content?_eq_some known
  have part : ofRegion reader options text template =
      .ok ⟨bindings, [.unclosedRegion template.name template.tagSpan]⟩ := by
    rw [ofRegion, enabled, known]
    dsimp only
    rw [ofContent, declares, if_pos unclosed]
    rfl
  rw [build, parsed]
  change (document.children.mapM (ofRegion reader options text)).bind _ = _
  rw [← List.dropLast_append_getLast? template ends, List.mapM_append, mapM_ofRegion_plain plain,
    List.mapM_cons, part]
  refine congrArg Except.ok ((concat_plain _ _).trans ?_)
  exact congrArg₂ Table.mk (List.append_nil _) (List.append_nil _)

/-- The scope of the loop variable of `loopText` ends where the variable is declared. -/
theorem build_loopText (reader : Script.Reader) :
    build reader {} loopText = .ok
      ⟨[⟨"a", .vForScope, 20, some ⟨10, 20⟩⟩], [.unclosedRegion "template" ⟨0, 10⟩]⟩ := by
  let document := (loopTags.foldl Builder.grow .start).finish 20
  let template := document.children.getLast (List.ne_nil_of_length_pos (by decide +kernel))
  have name : template.name = "template" := by decide +kernel
  have span : template.tagSpan = ⟨0, 10⟩ := by decide +kernel
  rw [← name, ← span]
  exact build_of_template reader parse_loopText (List.getLast?_eq_some_getLast _)
    (by decide +kernel) (by decide +kernel) (by decide +kernel) (by decide +kernel)

end SfcIndex.Table
