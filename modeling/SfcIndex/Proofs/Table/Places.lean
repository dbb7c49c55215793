import SfcIndex.Proofs.Markup.Borders
import SfcIndex.Proofs.Table.Introduced
import SfcIndex.Proofs.Text.Lines

/-! # The lines on which bindings lie

The position of a binding is a place on a line of the text, never one between the carriage return
that ends a line and the line's end (`Table.onLine_of_mem`): names of templates start there, or a
mark stands in front of it, and names of styles end there.
-/

namespace SfcIndex

open Text Markup

/-- No carriage return is part of a selector. -/
theorem Style.ne_return_of_isSelectorChar {c : Char} (word : isSelectorChar c = true) :
    c ≠ '\r' := by
  rintro rfl
  revert word
  decide

namespace Template

/-- The name of a declared variable starts with a word character. -/
theorem Declares.exists_head {declaration : Attribute} {location : Location}
    (declares : Declares declaration location) :
    ∃ c rest, location.name.toList = c :: rest ∧ isWordChar c = true := by
  have starts : ∀ {text : List Char} {start : Nat} {name : List Char},
      IdentifierAt text start name → ∃ c rest, name = c :: rest ∧ isWordChar c = true := by
    rintro text start name ⟨⟨before, after, -, -, isolated⟩, -⟩
    obtain ⟨c, rest, rfl⟩ := List.exists_cons_of_ne_nil isolated.nonempty
    exact ⟨c, rest, rfl, isolated.word c List.mem_cons_self⟩
  cases declares with
  | loop key is head stands => exact starts stands
  | slot key is stands => exact starts stands

/-- The names of an element lie on lines. -/
theorem onLine_of_mem {rawTags : List String} {text : List Char} {element : Region}
    (member : element ∈ (Region.tree rawTags text).children.flatMap Region.descendants)
    {binding : Binding} (named : binding ∈ elementNames element) :
    OnLine text binding.position := by
  obtain ⟨declaration, carries, introduced⟩ := List.mem_flatMap.1 named
  rcases cases_of_mem introduced with ⟨value, is, -, rfl⟩ | ⟨-, -, declares⟩
  · -- The value may start with a line feed, but a mark stands in front of it.
    obtain ⟨start, mark, marks, value_eq, before, after, whole, place, -⟩ :=
      Region.value_marked member carries is
    have other : mark ≠ '\r' := by
      rintro rfl
      revert marks
      decide
    have stands : StandsAt text start ([] ++ [mark]) :=
      ⟨before, value.text.toList ++ after, whole, place⟩
    have width_eq : width ([] ++ [mark]) = mark.utf8Size := Nat.add_zero _
    dsimp only
    rw [value_eq, ← width_eq]
    exact OnLine.of_last stands other
  · obtain ⟨c, rest, spelled, word⟩ := declares.exists_head
    have stands := (declares.standsIn member carries).stands
    have other : c ≠ '\n' := by
      rintro rfl
      revert word
      decide
    rw [spelled] at stands
    exact OnLine.of_next stands other

end Template

namespace Table

/-- What is assumed of a script: the names in it end just behind a character that is no carriage
return. -/
def EndBehindCharacters (script : List Char) (bindings : List Binding) : Prop :=
  ∀ binding ∈ bindings, ∃ parts ∈ splitAt? binding.position script, ∃ c ∈ parts.1.getLast?, c ≠ '\r'

instance (script : List Char) (bindings : List Binding) :
    Decidable (EndBehindCharacters script bindings) :=
  decidable_of_iff (∀ binding ∈ bindings,
      ((splitAt? binding.position script).any fun parts => parts.1.getLast?.any (· ≠ '\r')) = true)
    (by simp only [EndBehindCharacters, Option.any_eq_true, decide_eq_true_iff, Option.mem_def])

/-- A name of a script ends behind a character other than a carriage return. -/
theorem EndBehindCharacters.exists_last {script : List Char} {bindings : List Binding}
    (known : EndBehindCharacters script bindings) {binding : Binding}
    (member : binding ∈ bindings) :
    ∃ before c, StandsAt script 0 (before ++ [c]) ∧ width (before ++ [c]) = binding.position ∧
      c ≠ '\r' := by
  obtain ⟨⟨front, after⟩, split, c, last, other⟩ := known binding member
  obtain ⟨rfl, size⟩ := splitAt?_eq_some split
  obtain ⟨before, rfl⟩ := List.getLast?_eq_some_iff.1 last
  exact ⟨before, c, ⟨[], after, rfl, rfl⟩, size, other⟩

/-- A name of a script ends inside the script. -/
theorem EndBehindCharacters.position_le {script : List Char} {bindings : List Binding}
    (known : EndBehindCharacters script bindings) {binding : Binding}
    (member : binding ∈ bindings) : binding.position ≤ width script := by
  obtain ⟨before, c, stands, size, -⟩ := known.exists_last member
  have inside := stands.stop_le
  omega

section Lines

variable {reader : Script.Reader} {options : Options} {text : List Char} {region : Region}

/-- A place behind such a character in a part of a text is on a line of the text. -/
theorem onLine_of_part {content : Span} {inside : List Char} {position : Nat} {before : List Char}
    {c : Char} {start : Nat} (covers : content.slice? text = some inside)
    (stands : StandsAt inside start (before ++ [c]))
    (place : position = start + width (before ++ [c])) (other : c ≠ '\r') :
    OnLine text (position + content.start) := by
  obtain ⟨outer, -⟩ := standsAt_of_slice? covers
  have place_eq : position + content.start = content.start + start + width (before ++ [c]) := by
    omega
  rw [place_eq]
  exact OnLine.of_last (outer.trans stands) other

/-- Every binding of a text lies on a line. -/
theorem onLine_of_mem (fits : width text ≤ Offset.limit)
    (scripts : EachScript reader options text EndBehindCharacters) {binding : Binding}
    (defined : binding ∈ (contents reader options text).bindings) :
    OnLine text binding.position := by
  rw [bindings_contents] at defined
  obtain ⟨region, member, introduced⟩ := List.mem_flatMap.1 defined
  cases introduces_of_mem_part fits introduced with
  | template tag opened below named =>
    exact Template.onLine_of_mem (Template.mem_descendants_of_mem member below) named
  | script is opened covers analyzed =>
    obtain ⟨before, c, stands, size, other⟩ :=
      (scripts region member is opened _ covers).exists_last analyzed
    exact onLine_of_part covers stands (by omega) other
  | @style style given tag opened covers scanned =>
    obtain ⟨start, sigil, selects⟩ := Style.selects_of_mem_scan scanned
    have some : given.name.toList ≠ [] := by
      intro none
      exact selects.named (String.toList_eq_nil_iff.1 none)
    -- The name ends at the position, so its last character stands in front of it.
    have spelled := List.dropLast_concat_getLast some
    have stands := selects.stands
    have place := selects.position
    have other := Style.ne_return_of_isSelectorChar (selects.word _ (List.getLast_mem some))
    rw [← spelled, ← List.cons_append] at stands place
    rw [Nat.zero_add] at place
    exact onLine_of_part covers stands place other

/-- A text that ends below the limit of offsets has a table, and all its bindings lie on lines. -/
theorem exists_onLine (reader : Script.Reader) (options : Options) {text : List Char}
    (fits : width text ≤ Offset.limit)
    (scripts : EachScript reader options text EndBehindCharacters) :
    ∃ table, build reader options text = .ok table ∧
      ∀ binding ∈ table.bindings, OnLine text binding.position := by
  have inside : ScriptsStayInside reader options text :=
    scriptsStayInside fits (scripts.imp fun _ _ known binding member => known.position_le member)
  refine ⟨_, (build_gives reader options fits).eq_ok ((below_contents inside).mono fits), ?_⟩
  exact fun binding defined => onLine_of_mem fits scripts defined

end Lines

end Table

end SfcIndex
