import SfcIndex.Proofs.Markup.Openings

/-! # What one tag does to the elements

The elements read so far stand in the order of their numbers, each with the way it has ended so far,
and some of them are open. One tag adds one element at the end, or gives one open element its
closing tag, or does nothing (`Handles`). While a text is read, every tag is handled so
(`Builder.Nests.handles`).
-/

namespace SfcIndex.Markup

open Text

/-- An element, with the way it has ended so far. -/
structure Entry where
  opening : Opening
  ending : Ending
  deriving Repr, DecidableEq

/-- What a tag does to the elements in the order of their numbers and to the open ones among them,
innermost first. -/
inductive Handles (tag : Tag) :
    (entries : List Entry) → (stack : List Opening) → List Entry → List Opening → Prop
  | opens {entries : List Entry} {stack : List Opening} {opening : Opening}
      (kind : tag.kind = .opening) (name : opening.name = tag.name)
      (span : opening.span = tag.span) :
      Handles tag entries stack (entries ++ [⟨opening, .unclosed⟩]) (opening :: stack)
  | single {entries : List Entry} {stack : List Opening} {opening : Opening}
      (kind : tag.kind = .selfClosing) (name : opening.name = tag.name)
      (span : opening.span = tag.span) :
      Handles tag entries stack (entries ++ [⟨opening, .selfClosing⟩]) stack
  /-- Of the open elements that have the name of a closing tag, the one that was opened last is
  closed, and with it those opened after it are no longer open. -/
  | closes {front back : List Entry} {inner outer : List Opening} {opening : Opening}
      (kind : tag.kind = .closing) (named : sameName opening.name tag.name = true)
      (latest : ∀ other ∈ inner ++ opening :: outer, sameName other.name tag.name = true →
        other.id ≤ opening.id) :
      Handles tag (front ++ ⟨opening, .unclosed⟩ :: back) (inner ++ opening :: outer)
        (front ++ ⟨opening, .closedBy tag.span⟩ :: back) outer
  | ignores {entries : List Entry} {stack : List Opening} (kind : tag.kind = .closing)
      (none : ∀ other ∈ stack, sameName other.name tag.name = false) :
      Handles tag entries stack entries stack

namespace Region

/-- How an element stands in the tree. -/
def entry (region : Region) : Entry := ⟨region.opening, region.ending⟩

/-- Regions and everything below them, in document order. -/
def entries : List Region → List Entry
  | [] => []
  | .node opening ending children :: more => ⟨opening, ending⟩ :: (entries children ++ entries more)

theorem entries_append (first second : List Region) :
    entries (first ++ second) = entries first ++ entries second := by
  induction first with
  | nil => simp [entries]
  | cons region more ih =>
    obtain ⟨opening, ending, children⟩ := region
    simp [entries, ih]

/-- The entries of regions are those of everything below them. -/
theorem map_entry_flatMap (regions : List Region) :
    (regions.flatMap descendants).map entry = entries regions := by
  fun_induction entries regions with
  | case1 => rfl
  | case2 opening ending children more inner outer =>
    rw [List.flatMap_cons, descendants_node, List.cons_append, List.map_cons, List.map_append,
      inner, outer]
    rfl

end Region

namespace Builder

/-- The elements read so far in document order; an open one has no ending yet. -/
def entries (builder : Builder) : List Entry :=
  Region.entries builder.finished.reverse ++
    builder.opened.reverse.flatMap fun element =>
      ⟨element.opening, .unclosed⟩ :: Region.entries element.finished.reverse

/-- The open elements, innermost first. -/
def stack (builder : Builder) : List Opening := builder.opened.map (·.opening)

section Changes

variable (builder : Builder)

theorem entries_append (region : Region) :
    (builder.append region).entries = builder.entries ++ Region.entries [region] := by
  obtain ⟨opened, finished, nextId⟩ := builder
  cases opened with
  | nil => simp [append, entries, Region.entries_append]
  | cons inner outer => simp [append, entries, Region.entries_append]

@[simp] theorem stack_append (region : Region) : (builder.append region).stack = builder.stack := by
  obtain ⟨opened, finished, nextId⟩ := builder
  cases opened with
  | nil => rfl
  | cons inner outer => rfl

/-- Ending the innermost element changes its entry only. -/
theorem entries_closeInnermost {opening : Opening} {outer : List Opening}
    (stack : builder.stack = opening :: outer) :
    ∃ front back, builder.entries = front ++ ⟨opening, .unclosed⟩ :: back ∧
      ∀ ending, (builder.closeInnermost ending).entries = front ++ ⟨opening, ending⟩ :: back := by
  obtain ⟨opened, finished, nextId⟩ := builder
  cases opened with
  | nil => cases stack
  | cons inner outer =>
    cases stack
    refine ⟨entries ⟨outer, finished, nextId⟩, Region.entries inner.finished.reverse, ?_, ?_⟩
    · simp [entries]
    · intro ending
      rw [closeInnermost, entries_append]
      simp [OpenElement.close, Region.entries]

theorem stack_closeInnermost (ending : Ending) :
    (builder.closeInnermost ending).stack = builder.stack.tail := by
  obtain ⟨opened, finished, nextId⟩ := builder
  cases opened with
  | nil => rfl
  | cons inner outer => exact stack_append _ _

/-- Leaving an element unclosed does not change the entries. -/
theorem entries_closeInnermost_unclosed :
    (builder.closeInnermost .unclosed).entries = builder.entries := by
  cases stack : builder.stack with
  | nil =>
    have none : builder.opened = [] := List.map_eq_nil_iff.1 stack
    rw [closeInnermost, none]
  | cons opening outer =>
    obtain ⟨front, back, before, after⟩ := builder.entries_closeInnermost stack
    rw [before, after]

/-- Leaving elements unclosed takes them off the stack only. -/
theorem abandon_entries_stack (count : Nat) :
    (builder.abandon count).entries = builder.entries ∧
      (builder.abandon count).stack = builder.stack.drop count := by
  induction count generalizing builder with
  | zero => exact ⟨rfl, rfl⟩
  | succ count ih =>
    obtain ⟨same, rest⟩ := ih (builder.closeInnermost .unclosed)
    rw [abandon, same, rest, entries_closeInnermost_unclosed, stack_closeInnermost, List.drop_tail]
    exact ⟨rfl, rfl⟩

/-- The entries of the finished tree are those of its building. -/
theorem entries_children_finish (length : Nat) :
    Region.entries (builder.finish length).children = builder.entries := by
  have none := builder.opened_abandon_all
  rw [← (builder.abandon_entries_stack builder.opened.length).1, entries, none]
  simp [finish]

end Changes

/-- The opened elements are numbered from the outermost to the innermost. -/
theorem Levels.stack_ids {finished : List Region} {opened : List OpenElement} {stop next : Nat}
    (levels : Levels finished opened stop next) :
    (∀ element ∈ opened, 0 < element.opening.id ∧ element.opening.id < next) ∧
      opened.Pairwise fun inner outer => outer.opening.id < inner.opening.id := by
  induction opened generalizing stop next with
  | nil => exact ⟨by simp, .nil⟩
  | cons inner outer ih =>
    obtain ⟨-, settled, around⟩ := levels
    obtain ⟨bounds, ordered⟩ := ih around
    have below := settled.laid.id_le_next
    have positive : 0 < inner.opening.id := by
      cases outer with
      | nil => exact (Settled.laid around).id_le_next
      | cons next more =>
        have := (bounds next List.mem_cons_self).2
        omega
    refine ⟨?_, List.pairwise_cons.2 ⟨fun element member => (bounds element member).2, ordered⟩⟩
    intro element member
    rcases List.mem_cons.1 member with rfl | around
    · exact ⟨positive, by omega⟩
    · have := bounds element around
      omega

variable {builder : Builder} {stop : Nat}

/-- The document is never one of the open elements. -/
theorem Nests.stack_positive (nests : builder.Nests stop) :
    ∀ opening ∈ builder.stack, 0 < opening.id := by
  intro opening member
  obtain ⟨element, opened, rfl⟩ := List.mem_map.1 member
  exact ((Levels.stack_ids nests).1 element opened).1

/-- Elements that were opened later come first. -/
theorem Nests.stack_pairwise (nests : builder.Nests stop) :
    builder.stack.Pairwise fun inner outer => outer.id < inner.id :=
  List.pairwise_map.2 (Levels.stack_ids nests).2

/-- The nearest open element with a name parts the open elements. -/
theorem exists_nearest {opened : List OpenElement} {name : String} {count : Nat}
    (found : (opened.findIdx? fun element => sameName element.opening.name name) = some count) :
    ∃ inner element outer, opened = inner ++ element :: outer ∧ inner.length = count ∧
      sameName element.opening.name name = true ∧
      ∀ other ∈ inner, sameName other.opening.name name = false := by
  obtain ⟨fewer, named, others⟩ := List.findIdx?_eq_some_iff_getElem.1 found
  refine ⟨opened.take count, opened[count], opened.drop (count + 1), ?_, ?_, named, ?_⟩
  · rw [← List.drop_eq_getElem_cons fewer, List.take_append_drop]
  · rw [List.length_take, Nat.min_eq_left (Nat.le_of_lt fewer)]
  · intro other member
    obtain ⟨index, below, rfl⟩ := List.getElem_of_mem member
    rw [List.length_take] at below
    rw [List.getElem_take]
    exact Bool.eq_false_iff.2 (others index (by omega))

/-- A closing tag closes the element of its name that was opened last, or is ignored. -/
theorem Nests.handles_closing (nests : builder.Nests stop) {tag : Tag}
    (kind : tag.kind = .closing) :
    Handles tag builder.entries builder.stack (builder.closeTag tag).entries
      (builder.closeTag tag).stack := by
  rw [Builder.closeTag]
  split
  next missing =>
    refine .ignores kind ?_
    intro opening member
    obtain ⟨element, opened, rfl⟩ := List.mem_map.1 member
    exact List.findIdx?_eq_none_iff.1 missing element opened
  next count found =>
    obtain ⟨inner, element, outer, opened, size, named, others⟩ := exists_nearest found
    have whole : builder.stack =
        inner.map (·.opening) ++ element.opening :: outer.map (·.opening) := by
      rw [stack, opened, List.map_append, List.map_cons]
    obtain ⟨same, rest⟩ := builder.abandon_entries_stack count
    have left : (builder.abandon count).stack = element.opening :: outer.map (·.opening) := by
      rw [rest, whole, List.drop_left' (by rw [List.length_map, size])]
    obtain ⟨front, back, before, after⟩ := (builder.abandon count).entries_closeInnermost left
    have ordered := nests.stack_pairwise
    rw [whole] at ordered
    rw [after, stack_closeInnermost, left, List.tail_cons, ← same, before, whole]
    refine .closes kind named ?_
    intro other member alike
    rcases List.mem_append.1 member with deeper | around
    · -- The elements inside have other names.
      obtain ⟨element', member', rfl⟩ := List.mem_map.1 deeper
      rw [others element' member'] at alike
      cases alike
    · rcases List.mem_cons.1 around with rfl | further
      · exact Nat.le_refl _
      · have later := (List.pairwise_append.1 ordered).2.1
        exact Nat.le_of_lt ((List.pairwise_cons.1 later).1 other further)

/-- Every tag adds one element, closes one or does nothing. -/
theorem Nests.handles (nests : builder.Nests stop) (tag : Tag) :
    Handles tag builder.entries builder.stack (builder.grow tag).entries
      (builder.grow tag).stack := by
  unfold Builder.grow
  cases kind : tag.kind with
  | closing => exact nests.handles_closing kind
  | selfClosing =>
    have added : Region.entries [.node (builder.openingOf tag) .selfClosing []] =
        [⟨builder.openingOf tag, .selfClosing⟩] := by
      simp [Region.entries]
    dsimp only
    rw [entries_append, stack_append, added]
    exact .single kind rfl rfl
  | opening =>
    have added : entries { builder with
        opened := ⟨builder.openingOf tag, []⟩ :: builder.opened, nextId := builder.nextId + 1 } =
        builder.entries ++ [⟨builder.openingOf tag, .unclosed⟩] := by
      simp [entries, Region.entries]
    dsimp only
    rw [added]
    exact .opens kind rfl rfl

end Builder

end SfcIndex.Markup
