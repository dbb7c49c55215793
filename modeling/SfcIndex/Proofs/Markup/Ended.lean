import Mathlib.Tactic.Common
import SfcIndex.Proofs.Markup.Entries

/-! # Regions that have ended

While a text is read, a region that has ended stays as it is (`Builder.mem_ended_grow`), and an
element that has a child keeps having one (`Builder.HasChild.grow`), up to the document at the end.
-/

namespace SfcIndex.Markup

open Text

namespace Builder

variable {builder : Builder} {region : Region}

/-- The regions that have ended, on every level. -/
def ended (builder : Builder) : List Region :=
  builder.finished.flatMap Region.descendants ++
    builder.opened.flatMap fun element => element.finished.flatMap Region.descendants

/-- A region that is added has ended, with all below it. -/
theorem mem_ended_append (builder : Builder) (added region : Region) :
    region ∈ (builder.append added).ended ↔
      region ∈ added.descendants ∨ region ∈ builder.ended := by
  obtain ⟨opened, finished, nextId⟩ := builder
  cases opened with
  | nil => simp [append, ended]
  | cons inner outer =>
    simp only [append, ended, List.flatMap_cons, List.mem_append]
    tauto

/-- An element that ends is one of the regions that have ended. -/
theorem close_mem_ended {inner : OpenElement} {outer : List OpenElement}
    (opened : builder.opened = inner :: outer) (ending : Ending) :
    inner.close ending ∈ (builder.closeInnermost ending).ended := by
  rw [closeInnermost, opened]
  dsimp only
  rw [mem_ended_append, OpenElement.close, Region.descendants_node]
  exact .inl List.mem_cons_self

theorem mem_ended_closeInnermost (ending : Ending) (member : region ∈ builder.ended) :
    region ∈ (builder.closeInnermost ending).ended := by
  obtain ⟨opened, finished, nextId⟩ := builder
  cases opened with
  | nil => exact member
  | cons inner outer =>
    rw [closeInnermost]
    dsimp only
    rw [mem_ended_append, OpenElement.close, Region.descendants_node]
    rw [ended, List.flatMap_cons] at member
    rcases List.mem_append.1 member with top | below
    · exact .inr (List.mem_append_left _ top)
    · rcases List.mem_append.1 below with inside | around
      · refine .inl (List.mem_cons_of_mem _ ?_)
        simpa using inside
      · exact .inr (List.mem_append_right _ around)

theorem mem_ended_abandon (count : Nat) (member : region ∈ builder.ended) :
    region ∈ (builder.abandon count).ended := by
  induction count generalizing builder with
  | zero => exact member
  | succ count ih => exact ih (mem_ended_closeInnermost .unclosed member)

theorem mem_ended_closeTag (tag : Tag) (member : region ∈ builder.ended) :
    region ∈ (builder.closeTag tag).ended := by
  rw [closeTag]
  split
  · exact member
  · exact mem_ended_closeInnermost _ (mem_ended_abandon _ member)

/-- What has ended stays so after any tag. -/
theorem mem_ended_grow (tag : Tag) (member : region ∈ builder.ended) :
    region ∈ (builder.grow tag).ended := by
  unfold grow
  cases tag.kind with
  | closing => exact mem_ended_closeTag tag member
  | selfClosing => exact (mem_ended_append _ _ _).2 (.inr member)
  | opening => simpa [ended] using member

/-- The element that is open innermost is among the ended ones once it is closed or abandoned. -/
theorem exists_ended_closeTag {inner : OpenElement} {outer : List OpenElement} {tag : Tag}
    (opened : builder.opened = inner :: outer)
    (named : ∃ opening ∈ builder.stack, sameName opening.name tag.name = true) :
    ∃ ending, inner.close ending ∈ (builder.closeTag tag).ended := by
  rw [closeTag]
  split
  next missing =>
    obtain ⟨opening, member, alike⟩ := named
    obtain ⟨element, known, rfl⟩ := List.mem_map.1 member
    rw [List.findIdx?_eq_none_iff.1 missing element known] at alike
    cases alike
  next count found =>
    cases count with
    | zero => exact ⟨_, close_mem_ended opened _⟩
    | succ count =>
      refine ⟨.unclosed, mem_ended_closeInnermost _ ?_⟩
      rw [abandon]
      exact mem_ended_abandon _ (close_mem_ended opened .unclosed)

/-- What has ended before the end of the text is in the document. -/
theorem mem_finish (length : Nat)
    (member : region ∈ (builder.abandon builder.opened.length).ended) :
    region ∈ (builder.finish length).children.flatMap Region.descendants := by
  have none := builder.opened_abandon_all
  rw [ended, none, List.flatMap_nil, List.append_nil] at member
  rw [finish, Region.children_node]
  simpa using member

/-- The element with the given number has a child, which may still be open. -/
def HasChild (builder : Builder) (id : Nat) : Prop :=
  (∃ region ∈ builder.ended, region.id = id ∧ region.children ≠ []) ∨
    ∃ inner element outer, builder.opened = inner ++ element :: outer ∧ element.opening.id = id ∧
      (inner ≠ [] ∨ element.finished ≠ [])

namespace HasChild

variable {id : Nat}

theorem append (has : builder.HasChild id) (added : Region) :
    (builder.append added).HasChild id := by
  rcases has with ⟨region, member, same⟩ | ⟨inner, element, outer, opened, same, child⟩
  · exact .inl ⟨region, (mem_ended_append _ _ _).2 (.inr member), same⟩
  · right
    cases inner with
    | nil =>
      refine ⟨[], { element with finished := added :: element.finished }, outer, ?_, same, .inr ?_⟩
      · rw [Builder.append, opened]
        rfl
      · exact List.cons_ne_nil _ _
    | cons first inner =>
      refine ⟨{ first with finished := added :: first.finished } :: inner, element, outer, ?_, same,
        .inl (List.cons_ne_nil _ _)⟩
      rw [Builder.append, opened]
      rfl

theorem closeInnermost (has : builder.HasChild id) (ending : Ending) :
    (builder.closeInnermost ending).HasChild id := by
  rcases has with ⟨region, member, same⟩ | ⟨inner, element, outer, opened, same, child⟩
  · exact .inl ⟨region, mem_ended_closeInnermost _ member, same⟩
  · rcases inner with _ | ⟨first, _ | ⟨second, inner⟩⟩
    · -- The element itself ends, and its children are finished.
      refine .inl ⟨element.close ending, close_mem_ended opened ending, same, ?_⟩
      rw [OpenElement.close, Region.children_node, ne_eq, List.reverse_eq_nil_iff]
      exact child.resolve_left fun some => some rfl
    · -- Its only open child ends.
      refine .inr ⟨[], { element with finished := first.close ending :: element.finished }, outer,
        ?_, same, .inr (List.cons_ne_nil _ _)⟩
      rw [Builder.closeInnermost, opened]
      rfl
    · refine .inr ⟨{ second with finished := first.close ending :: second.finished } :: inner,
        element, outer, ?_, same, .inl (List.cons_ne_nil _ _)⟩
      rw [Builder.closeInnermost, opened]
      rfl

theorem abandon (has : builder.HasChild id) (count : Nat) :
    (builder.abandon count).HasChild id := by
  induction count generalizing builder with
  | zero => exact has
  | succ count ih => exact ih (has.closeInnermost .unclosed)

/-- A child stays one after any tag. -/
theorem grow (has : builder.HasChild id) (tag : Tag) : (builder.grow tag).HasChild id := by
  unfold Builder.grow
  cases tag.kind with
  | closing =>
    dsimp only
    rw [Builder.closeTag]
    split
    · exact has
    · exact (has.abandon _).closeInnermost _
  | selfClosing =>
    have numbered : HasChild { builder with nextId := builder.nextId + 1 } id := has
    exact numbered.append _
  | opening =>
    rcases has with ⟨region, member, same⟩ | ⟨inner, element, outer, opened, same, child⟩
    · exact .inl ⟨region, by simpa [ended] using member, same⟩
    · refine .inr ⟨⟨builder.openingOf tag, []⟩ :: inner, element, outer, ?_, same,
        .inl (List.cons_ne_nil _ _)⟩
      dsimp only
      rw [opened, List.cons_append]

/-- An element with a child has one in the document. -/
theorem finish (has : builder.HasChild id) (length : Nat) :
    ∃ region ∈ (builder.finish length).children.flatMap Region.descendants,
      region.id = id ∧ region.children ≠ [] := by
  have none := builder.opened_abandon_all
  rcases has.abandon builder.opened.length with
    ⟨region, member, is⟩ | ⟨inner, element, outer, some, -⟩
  · exact ⟨region, mem_finish length member, is⟩
  · rw [none] at some
    simp at some

end HasChild

/-- A tag that opens an element gives the innermost open element a child. -/
theorem hasChild_grow {inner : OpenElement} {outer : List OpenElement} {tag : Tag}
    (opened : builder.opened = inner :: outer) (opens : tag.kind ≠ .closing) :
    (builder.grow tag).HasChild inner.opening.id := by
  right
  unfold grow
  cases kind : tag.kind with
  | closing => exact absurd kind opens
  | selfClosing =>
    refine ⟨[], { inner with
      finished := .node (builder.openingOf tag) .selfClosing [] :: inner.finished }, outer, ?_, rfl,
      .inr (List.cons_ne_nil _ _)⟩
    dsimp only
    rw [append]
    dsimp only
    rw [opened]
    rfl
  | opening =>
    refine ⟨[⟨builder.openingOf tag, []⟩], inner, outer, ?_, rfl, .inl (List.cons_ne_nil _ _)⟩
    dsimp only
    rw [opened]
    rfl

/-- Whether a tag opens an element or closes an open one. -/
def heeds (builder : Builder) (tag : Tag) : Bool :=
  tag.kind ≠ .closing || builder.stack.any fun opening => sameName opening.name tag.name

/-- A tag that is not heeded changes nothing. -/
theorem addTag_of_unheeded {tag : Tag} (unheeded : builder.heeds tag = false) :
    builder.addTag tag = .ok builder := by
  rw [heeds, Bool.or_eq_false_iff, decide_eq_false_iff_not, not_not, List.any_eq_false] at unheeded
  obtain ⟨closes, others⟩ := unheeded
  have missing : (builder.opened.findIdx? fun element => sameName element.opening.name tag.name) =
      none := by
    apply List.findIdx?_eq_none_iff.2
    intro element member
    exact Bool.eq_false_iff.2 (others element.opening (List.mem_map_of_mem member))
  rw [addTag, if_pos closes, closeTag, missing]

end Builder

end SfcIndex.Markup
