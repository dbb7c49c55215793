import SfcIndex.Proofs.Table.Introduced
import SfcIndex.Script.Read

/-! # The order of a table

The names of a table come in the order of their positions, and only the last region at the top level
can be without an end (`Table.build_inOrder`). Templates and styles put their names in order; of
scripts this is assumed.
-/

namespace SfcIndex

open Text Markup

/-- Whether a warning is about a region without a closing tag. -/
def Warning.isUnclosed : Warning → Bool
  | unclosedRegion _ _ => true
  | _ => false

namespace Table

/-- Bindings of some categories come in the order of their positions. -/
def InOrder (kept : Category → Prop) (bindings : List Binding) : Prop :=
  bindings.Pairwise fun first second =>
    kept first.category → kept second.category → first.position < second.position

/-- The names of a script that have some categories are in order and lie inside the script. -/
def ScriptInOrder (kept : Category → Prop) (script : List Char) (bindings : List Binding) : Prop :=
  InOrder kept bindings ∧
    ∀ binding ∈ bindings, kept binding.category → binding.position ≤ width script

/-- What is assumed of a script: its names are in order and lie inside it. -/
def NamesInOrder (script : List Char) (bindings : List Binding) : Prop :=
  (bindings.Pairwise fun first second => first.position < second.position) ∧
    ∀ binding ∈ bindings, binding.position ≤ width script

instance (script : List Char) (bindings : List Binding) :
    Decidable (NamesInOrder script bindings) :=
  inferInstanceAs (Decidable (_ ∧ _))

/-- Bindings in order stay so when all are moved. -/
theorem InOrder.move {kept : Category → Prop} {bindings : List Binding}
    (ordered : InOrder kept bindings) (bytes : Nat) :
    InOrder kept (bindings.map (·.move bytes)) := by
  rw [InOrder, List.pairwise_map]
  apply List.Pairwise.imp ?_ ordered
  intro first second before left right
  exact Nat.add_lt_add_right (before left right) bytes

section Order

variable {reader : Script.Reader} {options : Options} {text : List Char} {kept : Category → Prop}
  {region : Region}

/-- Bindings of all categories in order are in order for some of them. -/
theorem inOrder_of_pairwise {bindings : List Binding}
    (ordered : bindings.Pairwise fun first second => first.position < second.position) :
    InOrder kept bindings :=
  ordered.imp fun before _ _ => before

/-- What a region defines is in order. -/
theorem part_inOrder (fits : width text ≤ Offset.limit)
    (scripts : EachScript reader options text (ScriptInOrder kept))
    (member : region ∈ (Region.tree options.rawTags text).children) :
    InOrder kept (part reader options text region).bindings := by
  rcases part_cases reader options text region with nothing | ⟨opened, table, reads, same⟩
  · rw [nothing]
    exact .nil
  · rw [same]
    rw [Offset.cut_eq fits] at reads
    cases reads with
    | nothing => exact .nil
    | template => exact inOrder_of_pairwise (Template.names_pairwise member)
    | script is covers => exact (scripts region member is opened _ covers).1.move _
    | @style style => exact (inOrder_of_pairwise (Style.scan_pairwise 0 .rules style)).move _

/-- A binding of a region lies behind the start of the region's tag. -/
theorem Introduces.tag_lt {binding : Binding}
    (member : region ∈ (Region.tree options.rawTags text).children)
    (introduces : Introduces reader text region binding) :
    region.tagSpan.start < binding.position := by
  have nonempty := Region.tag_nonempty member
  cases introduces with
  | template _ _ below named =>
    have inside := Template.standsIn_of_mem (Template.mem_descendants_of_mem member below) named
    exact Nat.lt_of_le_of_lt (Region.tag_start_le member below) inside.tag_lt
  | script => exact Nat.lt_of_lt_of_le nonempty (Nat.le_add_left _ _)
  | style => exact Nat.lt_of_lt_of_le nonempty (Nat.le_add_left _ _)

/-- What a script or style puts inside its text lies inside its region. -/
theorem move_le_next {binding : Binding} {inside : List Char} {next : Region}
    (opened : region.isSelfClosing = false) (ends : region.EndsBefore next)
    (covers : (region.body (width text)).slice? text = some inside)
    (within : binding.position ≤ width inside) :
    (binding.move (region.body (width text)).start).position ≤ next.tagSpan.start := by
  have stop := (standsAt_of_slice? covers).2
  have stops := ends.content _ (contentSpan?_eq_body opened ends.ended (width text))
  have position : (binding.move (region.body (width text)).start).position =
    binding.position + (region.body (width text)).start := rfl
  omega

/-- A binding of a region lies before everything that comes after the region. -/
theorem Introduces.le_next {binding : Binding} {next : Region}
    (scripts : EachScript reader options text (ScriptInOrder kept))
    (member : region ∈ (Region.tree options.rawTags text).children)
    (ends : region.EndsBefore next) (introduces : Introduces reader text region binding)
    (is : kept binding.category) : binding.position ≤ next.tagSpan.start := by
  cases introduces with
  | template _ _ below named =>
    have inside := Template.standsIn_of_mem (Template.mem_descendants_of_mem member below) named
    have stop := ends.below _ below
    have lt_tag := inside.lt_tag
    omega
  | script kind opened covers analyzed =>
    have within := (scripts region member kind opened _ covers).2 _ analyzed is
    exact move_le_next opened ends covers within
  | style _ opened covers scanned =>
    exact move_le_next opened ends covers (Style.below_of_mem_bindings scanned).1

/-- What a text defines is in order. -/
theorem contents_inOrder (fits : width text ≤ Offset.limit)
    (scripts : EachScript reader options text (ScriptInOrder kept)) :
    InOrder kept (contents reader options text).bindings := by
  rw [InOrder, bindings_contents, List.pairwise_flatMap]
  refine ⟨fun region member => part_inOrder fits scripts member, ?_⟩
  -- Between two regions, the start of the later one's tag separates the positions.
  apply (Region.children_endsBefore options.rawTags text).imp_of_mem
  intro first second before after ends binding defined binding' defined' is _
  have left := (introduces_of_mem_part fits defined).le_next scripts before ends is
  have right := (introduces_of_mem_part fits defined').tag_lt after
  omega

end Order

section Unclosed

variable {reader : Script.Reader} {options : Options} {text : List Char}

/-- What is read of a region says nothing about its end. -/
theorem Reads.filter_isUnclosed {region : Region} {content : Span} {table : Table}
    (reads : Reads reader text region content table) :
    table.warnings.filter Warning.isUnclosed = [] := by
  rw [List.filter_eq_nil_iff]
  intro warning member
  cases reads with
  | nothing => cases member
  | template => cases member
  | style => cases member
  | script =>
    rcases List.mem_append.1 member with diagnosed | isClass
    · obtain ⟨message, -, rfl⟩ := List.mem_map.1 diagnosed
      exact Bool.false_ne_true
    · obtain ⟨-, only⟩ := List.mem_ite_nil_right.1 isClass
      rw [List.mem_singleton.1 only]
      exact Bool.false_ne_true

/-- A region without an end is warned of once at most. -/
theorem unclosed_part (reader : Script.Reader) (options : Options) (text : List Char)
    (region : Region) :
    (part reader options text region).warnings.filter Warning.isUnclosed = [] ∨
      (region.ending = .unclosed ∧
        (part reader options text region).warnings.filter Warning.isUnclosed =
          [.unclosedRegion region.name region.tagSpan]) := by
  rcases part_cases reader options text region with nothing | ⟨-, table, reads, same⟩
  · rw [nothing]
    exact .inl rfl
  · rw [same]
    dsimp only [append]
    rw [List.filter_append, reads.filter_isUnclosed, List.append_nil]
    by_cases unclosed : region.ending = .unclosed
    · rw [if_pos unclosed]
      exact .inr ⟨unclosed, rfl⟩
    · rw [if_neg unclosed]
      exact .inl rfl

/-- Of regions that end one before the other, only the last may be without an end. -/
theorem unclosed_regions (reader : Script.Reader) (options : Options) (text : List Char)
    {regions : List Region} (apart : regions.Pairwise Region.EndsBefore) :
    let unclosed := regions.flatMap fun region =>
      (part reader options text region).warnings.filter Warning.isUnclosed
    unclosed = [] ∨ ∃ last, regions.getLast? = some last ∧
      unclosed = [.unclosedRegion last.name last.tagSpan] := by
  induction regions with
  | nil => exact .inl rfl
  | cons region more ih =>
    obtain ⟨first, later⟩ := List.pairwise_cons.1 apart
    dsimp only at ih ⊢
    rw [List.flatMap_cons]
    rcases unclosed_part reader options text region with none | ⟨unclosed, once⟩
    · rw [none, List.nil_append]
      apply (ih later).imp_right
      rintro ⟨last, is, same⟩
      exact ⟨last, by rw [List.getLast?_cons, is]; rfl, same⟩
    · right
      -- Nothing comes after a region without an end.
      cases more with
      | nil => exact ⟨region, rfl, by rw [once]; rfl⟩
      | cons next _ => exact absurd unclosed (first next List.mem_cons_self).ended

end Unclosed

/-- The table of a text that ends below the limit is in the order of its text: positions increase
from each binding to the next, and a warning about a region without an end comes once at most and is
about the last region at the top level. -/
theorem build_inOrder (reader : Script.Reader) (options : Options) {text : List Char}
    (fits : width text ≤ Offset.limit) (scripts : EachScript reader options text NamesInOrder) :
    ∃ document table, Region.parse options.rawTags text = .ok document ∧
      build reader options text = .ok table ∧
      (table.bindings.Pairwise fun first second => first.position < second.position) ∧
      (table.warnings.filter Warning.isUnclosed = [] ∨
        ∃ last, document.children.getLast? = some last ∧
          table.warnings.filter Warning.isUnclosed =
            [.unclosedRegion last.name last.tagSpan]) := by
  have inside : ScriptsStayInside reader options text :=
    scriptsStayInside fits (scripts.imp fun _ _ => And.right)
  have ordered : EachScript reader options text (ScriptInOrder fun _ => True) :=
    scripts.imp fun script bindings known =>
      ⟨inOrder_of_pairwise known.1, fun binding member _ => known.2 binding member⟩
  refine ⟨_, _, Region.parse_eq_ok options.rawTags fits,
    (build_gives reader options fits).eq_ok ((below_contents inside).mono fits), ?_, ?_⟩
  · exact (contents_inOrder fits ordered).imp fun before => before trivial trivial
  · rw [contents, warnings_concat, List.flatMap_map, List.filter_flatMap]
    exact unclosed_regions reader options text (Region.children_endsBefore options.rawTags text)

/-- So it is for a template, a script and a style without an end. -/
theorem build_inOrder_unclosed :
    let text :=
      "<template><i ref='x' #s='a'/></template><script setup>let y</script><style>.s\x7b".toList
    width text ≤ Offset.limit ∧ EachScript Script.read {} text NamesInOrder ∧
      ∃ document table, Region.parse ({} : Options).rawTags text = .ok document ∧
        build Script.read {} text = .ok table ∧
        (table.bindings.Pairwise fun first second => first.position < second.position) ∧
        (table.warnings.filter Warning.isUnclosed = [] ∨
          ∃ last, document.children.getLast? = some last ∧
            table.warnings.filter Warning.isUnclosed =
              [.unclosedRegion last.name last.tagSpan]) := by
  intro text
  have fits : width text ≤ Offset.limit := by decide +kernel
  have scripts : EachScript Script.read {} text NamesInOrder := by decide +kernel
  exact ⟨fits, scripts, build_inOrder Script.read {} fits scripts⟩

end Table

end SfcIndex
