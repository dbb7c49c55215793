import SfcIndex.Proofs.Markup.Tree

/-! # How the regions of a text are laid out

`Laid` is the shape of every forest that is read from a text: elements stand one after the other
with their opening tags in the order of their numbers, the children of an element lie between its
two tags, and an element without a closing tag reaches as far as its surroundings, so that nothing
comes after it. While a text is read, the finished children of every open element can still be
continued (`Builder.Nests`); the tree at the end is laid out (`Region.tree_laid`).
-/

namespace SfcIndex.Markup

open Text

namespace Region

section Node

variable (opening : Opening) (ending : Ending) (children : List Region) (tag : Span)

@[simp] theorem id_node : (node opening ending children).id = opening.id := rfl

@[simp] theorem tagSpan_node : (node opening ending children).tagSpan = opening.span := rfl

@[simp] theorem children_node : (node opening ending children).children = children := rfl

@[simp] theorem ending_node : (node opening ending children).ending = ending := rfl

@[simp] theorem span_selfClosing : (node opening .selfClosing children).span = opening.span := rfl

@[simp] theorem span_unclosed : (node opening .unclosed children).span = opening.span := rfl

@[simp] theorem span_closedBy :
    (node opening (.closedBy tag) children).span = ⟨opening.span.start, tag.stop⟩ := rfl

@[simp] theorem contentSpan?_selfClosing :
    (node opening .selfClosing children).contentSpan? = none := rfl

@[simp] theorem contentSpan?_unclosed :
    (node opening .unclosed children).contentSpan? = none := rfl

@[simp] theorem contentSpan?_closedBy :
    (node opening (.closedBy tag) children).contentSpan? =
      some ⟨opening.span.stop, tag.start⟩ := rfl

end Node

end Region

/-- Regions one after the other from `start` to `stop`, numbered from `id` up to `next`. -/
inductive Laid : (start id : Nat) → List Region → (stop next : Nat) → Prop
  | nil {start stop id : Nat} (order : start ≤ stop) : Laid start id [] stop id
  | selfClosing {start id stop next : Nat} {opening : Opening} {more : List Region}
      (numbered : opening.id = id) (after : start ≤ opening.span.start)
      (nonempty : opening.span.start < opening.span.stop)
      (later : Laid opening.span.stop (id + 1) more stop next) :
      Laid start id (.node opening .selfClosing [] :: more) stop next
  | closed {start id stop next middle : Nat} {opening : Opening} {tag : Span}
      {children more : List Region}
      (numbered : opening.id = id) (after : start ≤ opening.span.start)
      (nonempty : opening.span.start < opening.span.stop)
      (inside : Laid opening.span.stop (id + 1) children tag.start middle)
      (closing : tag.start < tag.stop) (later : Laid tag.stop middle more stop next) :
      Laid start id (.node opening (.closedBy tag) children :: more) stop next
  | unclosed {start id stop next : Nat} {opening : Opening} {children : List Region}
      (numbered : opening.id = id) (after : start ≤ opening.span.start)
      (nonempty : opening.span.start < opening.span.stop)
      (inside : Laid opening.span.stop (id + 1) children stop next) :
      Laid start id [.node opening .unclosed children] stop next

namespace Laid

variable {start start' id stop stop' next : Nat} {regions : List Region}

theorem mono_start (laid : Laid start id regions stop next) (earlier : start' ≤ start) :
    Laid start' id regions stop next := by
  cases laid with
  | nil order => exact .nil (Nat.le_trans earlier order)
  | selfClosing numbered after nonempty later =>
    exact .selfClosing numbered (Nat.le_trans earlier after) nonempty later
  | closed numbered after nonempty inside closing later =>
    exact .closed numbered (Nat.le_trans earlier after) nonempty inside closing later
  | unclosed numbered after nonempty inside =>
    exact .unclosed numbered (Nat.le_trans earlier after) nonempty inside

theorem mono_stop (laid : Laid start id regions stop next) (later : stop ≤ stop') :
    Laid start id regions stop' next := by
  induction laid with
  | nil order => exact .nil (Nat.le_trans order later)
  | selfClosing numbered after nonempty _ ih =>
    exact .selfClosing numbered after nonempty (ih later)
  | closed numbered after nonempty inside closing _ _ ih =>
    exact .closed numbered after nonempty inside closing (ih later)
  | unclosed numbered after nonempty _ ih => exact .unclosed numbered after nonempty (ih later)

/-- A layout does not stop in front of its start. -/
theorem start_le_stop (laid : Laid start id regions stop next) : start ≤ stop := by
  induction laid with
  | nil order => exact order
  | selfClosing _ after nonempty _ ih => omega
  | closed _ after nonempty _ closing _ inner outer => omega
  | unclosed _ after nonempty _ ih => omega

/-- The numbers of a layout go up. -/
theorem id_le_next (laid : Laid start id regions stop next) : id ≤ next := by
  induction laid with
  | nil => exact Nat.le_refl _
  | selfClosing _ _ _ _ ih => omega
  | closed _ _ _ _ _ _ inner outer => omega
  | unclosed _ _ _ _ ih => omega

/-- What the layout says about an element: its content is laid out up to `inner`, and what comes
after it starts at `last` or later. -/
structure Element (start id inner last : Nat) (opening : Opening) (ending : Ending)
    (children more : List Region) : Prop where
  numbered : opening.id = id
  after : start ≤ opening.span.start
  nonempty : opening.span.start < opening.span.stop
  tag_le_span : opening.span.stop ≤ (Region.node opening ending children).span.stop
  span_le : (Region.node opening ending children).span.stop ≤ last
  inner_le : inner ≤ last
  childless : ending = .selfClosing → children = []
  content : ∀ span, (Region.node opening ending children).contentSpan? = some span →
    span = ⟨opening.span.stop, inner⟩ ∧ inner ≤ (Region.node opening ending children).span.stop
  unfollowed : ending = .unclosed → more = []

/-- Induction over a laid-out forest, element by element, however the elements end. -/
@[elab_as_elim]
theorem induction_elements
    {motive : (start id : Nat) → (regions : List Region) → (stop next : Nat) →
      Laid start id regions stop next → Prop}
    (nil : ∀ {start stop id : Nat} (order : start ≤ stop), motive start id [] stop id (.nil order))
    (cons : ∀ {start id stop next inner last middle : Nat} {opening : Opening} {ending : Ending}
      {children more : List Region}
      (_ : Element start id inner last opening ending children more)
      (inside : Laid opening.span.stop (id + 1) children inner middle)
      (later : Laid last middle more stop next)
      (whole : Laid start id (.node opening ending children :: more) stop next),
      motive _ _ _ _ _ inside → motive _ _ _ _ _ later → motive _ _ _ _ _ whole)
    {start id : Nat} {regions : List Region} {stop next : Nat}
    (laid : Laid start id regions stop next) : motive start id regions stop next laid := by
  induction laid with
  | nil order => exact nil order
  | selfClosing numbered after nonempty later ih =>
    refine cons ?_ (.nil (Nat.le_refl _)) later _ (nil (Nat.le_refl _)) ih
    exact ⟨numbered, after, nonempty, Nat.le_refl _, Nat.le_refl _, Nat.le_refl _, fun _ => rfl,
      by simp, by simp⟩
  | closed numbered after nonempty inside closing later inner outer =>
    refine cons ?_ inside later _ inner outer
    refine ⟨numbered, after, nonempty, ?_, Nat.le_refl _, Nat.le_of_lt closing, by simp, ?_,
      by simp⟩
    · have := inside.start_le_stop
      rw [Region.span_closedBy]
      dsimp only
      omega
    · intro span is
      rw [Region.contentSpan?_closedBy] at is
      exact ⟨(Option.some.inj is).symm, Nat.le_of_lt closing⟩
  | unclosed numbered after nonempty inside ih =>
    refine cons ?_ inside (.nil (Nat.le_refl _)) _ ih (nil (Nat.le_refl _))
    exact ⟨numbered, after, nonempty, Nat.le_refl _, inside.start_le_stop, Nat.le_refl _, by simp,
      by simp, fun _ => rfl⟩

end Laid

/-- Regions that can be continued: whatever is laid out after them is laid out with them. -/
def Settled (start id : Nat) (regions : List Region) (stop next : Nat) : Prop :=
  ∀ more stop' next', Laid stop next more stop' next' →
    Laid start id (regions ++ more) stop' next'

namespace Settled

variable {start id stop stop' next : Nat} {regions : List Region}

theorem nil (order : start ≤ stop) : Settled start id [] stop id :=
  fun _ _ _ later => later.mono_start order

/-- What is settled is laid out. -/
theorem laid (settled : Settled start id regions stop next) :
    Laid start id regions stop next := by
  simpa using settled [] stop next (.nil (Nat.le_refl _))

theorem mono_stop (settled : Settled start id regions stop next) (later : stop ≤ stop') :
    Settled start id regions stop' next :=
  fun more _ _ laid => settled more _ _ (laid.mono_start later)

/-- Settled regions in a row are settled. -/
theorem append {more : List Region} {last next' : Nat}
    (first : Settled start id regions stop next) (second : Settled stop next more last next') :
    Settled start id (regions ++ more) last next' := by
  intro others stop' next'' later
  rw [List.append_assoc]
  exact first _ _ _ (second others _ _ later)

/-- An element on its own is settled. -/
theorem selfClosing {opening : Opening} (numbered : opening.id = id)
    (after : start ≤ opening.span.start) (nonempty : opening.span.start < opening.span.stop) :
    Settled start id [.node opening .selfClosing []] opening.span.stop (id + 1) :=
  fun _ _ _ later => .selfClosing numbered after nonempty later

/-- An element that is closed around a layout is settled. -/
theorem closed {opening : Opening} {tag : Span} (numbered : opening.id = id)
    (after : start ≤ opening.span.start) (nonempty : opening.span.start < opening.span.stop)
    (inside : Laid opening.span.stop (id + 1) regions tag.start next)
    (closing : tag.start < tag.stop) :
    Settled start id [.node opening (.closedBy tag) regions] tag.stop next :=
  fun _ _ _ later => .closed numbered after nonempty inside closing later

end Settled

namespace Builder

/-- The open elements, innermost first, and the top level around them, when everything up to `stop`
is read and the next number is `next`: at each level the finished regions are settled up to the
opening tag of the next open element. -/
def Levels (finished : List Region) : List OpenElement → Nat → Nat → Prop
  | [], stop, next => Settled 0 1 finished.reverse stop next
  | inner :: outer, stop, next =>
    inner.opening.span.start < inner.opening.span.stop ∧
      Settled inner.opening.span.stop (inner.opening.id + 1) inner.finished.reverse stop next ∧
      Levels finished outer inner.opening.span.start inner.opening.id

/-- The tree under construction can be continued from `stop`. -/
def Nests (builder : Builder) (stop : Nat) : Prop :=
  Levels builder.finished builder.opened stop builder.nextId

/-- As `Nests`, but the regions of the innermost level may have an end that cannot be continued. -/
def Ends (builder : Builder) (stop : Nat) : Prop :=
  match builder.opened with
  | [] => Laid 0 1 builder.finished.reverse stop builder.nextId
  | inner :: outer =>
    inner.opening.span.start < inner.opening.span.stop ∧
      Laid inner.opening.span.stop (inner.opening.id + 1) inner.finished.reverse stop
        builder.nextId ∧
      Levels builder.finished outer inner.opening.span.start inner.opening.id

theorem Nests.mono {builder : Builder} {stop stop' : Nat} (nests : builder.Nests stop)
    (later : stop ≤ stop') : builder.Nests stop' := by
  obtain ⟨opened, finished, nextId⟩ := builder
  cases opened with
  | nil => exact Settled.mono_stop nests later
  | cons inner outer => exact ⟨nests.1, nests.2.1.mono_stop later, nests.2.2⟩

/-- Nested elements can end where they stop. -/
theorem Nests.ends {builder : Builder} {stop : Nat} (nests : builder.Nests stop) :
    builder.Ends stop := by
  obtain ⟨opened, finished, nextId⟩ := builder
  cases opened with
  | nil => exact Settled.laid nests
  | cons inner outer => exact ⟨nests.1, nests.2.1.laid, nests.2.2⟩

section Append

variable {opened : List OpenElement} {finished : List Region} {region : Region}
  {stop next stop' next' : Nat}

/-- A settled region can be added to nested elements. -/
theorem nests_append (levels : Levels finished opened stop next)
    (settled : Settled stop next [region] stop' next') :
    (append ⟨opened, finished, next'⟩ region).Nests stop' := by
  cases opened with
  | nil =>
    have whole := Settled.append levels settled
    rw [← List.reverse_cons] at whole
    exact whole
  | cons inner outer =>
    have whole := levels.2.1.append settled
    rw [← List.reverse_cons] at whole
    exact ⟨levels.1, whole, levels.2.2⟩

/-- A region can be added to elements that end. -/
theorem ends_append (levels : Levels finished opened stop next)
    (laid : Laid stop next [region] stop' next') :
    (append ⟨opened, finished, next'⟩ region).Ends stop' := by
  cases opened with
  | nil =>
    have whole := levels _ _ _ laid
    rw [← List.reverse_cons] at whole
    exact whole
  | cons inner outer =>
    have whole := levels.2.1 _ _ _ laid
    rw [← List.reverse_cons] at whole
    exact ⟨levels.1, whole, levels.2.2⟩

end Append

/-- The innermost element can be left unclosed. -/
theorem Ends.closeInnermost_unclosed {builder : Builder} {stop : Nat} (ends : builder.Ends stop) :
    (builder.closeInnermost .unclosed).Ends stop := by
  obtain ⟨opened, finished, nextId⟩ := builder
  cases opened with
  | nil => exact ends
  | cons inner outer =>
    obtain ⟨nonempty, laid, levels⟩ := ends
    exact ends_append levels (.unclosed rfl (Nat.le_refl _) nonempty laid)

/-- Any number of elements can be left unclosed. -/
theorem Ends.abandon {builder : Builder} {stop : Nat} (ends : builder.Ends stop) (count : Nat) :
    (builder.abandon count).Ends stop := by
  induction count generalizing builder with
  | zero => exact ends
  | succ count ih => exact ih ends.closeInnermost_unclosed

/-- After a closing tag the elements around it are nested again. -/
theorem Ends.closeInnermost_closedBy {builder : Builder} {tag : Span}
    (ends : builder.Ends tag.start) (closing : tag.start < tag.stop)
    (some : builder.opened ≠ []) : (builder.closeInnermost (.closedBy tag)).Nests tag.stop := by
  obtain ⟨opened, finished, nextId⟩ := builder
  cases opened with
  | nil => exact absurd rfl some
  | cons inner outer =>
    obtain ⟨nonempty, laid, levels⟩ := ends
    exact nests_append levels (.closed rfl (Nat.le_refl _) nonempty laid closing)

@[simp] theorem length_opened_append (builder : Builder) (region : Region) :
    (builder.append region).opened.length = builder.opened.length := by
  obtain ⟨opened, finished, nextId⟩ := builder
  cases opened <;> rfl

theorem length_opened_closeInnermost (builder : Builder) (ending : Ending) :
    (builder.closeInnermost ending).opened.length = builder.opened.length - 1 := by
  obtain ⟨opened, finished, nextId⟩ := builder
  cases opened with
  | nil => rfl
  | cons inner outer => exact length_opened_append _ _

theorem length_opened_abandon (builder : Builder) (count : Nat) :
    (builder.abandon count).opened.length = builder.opened.length - count := by
  induction count generalizing builder with
  | zero => rfl
  | succ count ih =>
    rw [abandon, ih, length_opened_closeInnermost]
    omega

/-- At the end of a text no element stays open. -/
theorem opened_abandon_all (builder : Builder) :
    (builder.abandon builder.opened.length).opened = [] := by
  rw [← List.length_eq_zero_iff, length_opened_abandon, Nat.sub_self]

/-- A closing tag keeps the tree one that can be continued. -/
theorem Nests.closeTag {builder : Builder} {tag : Tag} (nests : builder.Nests tag.span.start)
    (nonempty : tag.span.start < tag.span.stop) : (builder.closeTag tag).Nests tag.span.stop := by
  unfold Builder.closeTag
  split
  next => exact nests.mono (Nat.le_of_lt nonempty)
  next inside found =>
    obtain ⟨below, -⟩ := List.findIdx?_eq_some_iff_getElem.1 found
    refine (nests.ends.abandon inside).closeInnermost_closedBy nonempty ?_
    have := builder.length_opened_abandon inside
    exact List.ne_nil_of_length_pos (by omega)

/-- Every tag keeps the tree one that can be continued. -/
theorem Nests.grow {builder : Builder} {stop : Nat} {tag : Tag} (nests : builder.Nests stop)
    (after : stop ≤ tag.span.start) (nonempty : tag.span.start < tag.span.stop) :
    (builder.grow tag).Nests tag.span.stop := by
  unfold Builder.grow
  split
  next => exact (nests.mono after).closeTag nonempty
  next => exact nests_append nests (.selfClosing rfl after nonempty)
  next => exact ⟨nonempty, .nil (Nat.le_refl _), nests.mono after⟩

/-- Tags in order keep the elements nested. -/
theorem Nests.foldl_grow {builder : Builder} {tags : List Tag} {start stop : Nat}
    (nests : builder.Nests start) (order : Tag.InOrder start tags stop) :
    (tags.foldl Builder.grow builder).Nests stop := by
  induction tags generalizing builder start with
  | nil => exact nests.mono order
  | cons tag more ih =>
    obtain ⟨after, nonempty, -, later⟩ := order
    exact ih (nests.grow after nonempty) later

theorem nests_start : start.Nests 0 := Settled.nil (Nat.le_refl _)

end Builder

namespace Region

/-- A document of the given length in bytes whose elements are laid out from its start to its
end. -/
def LaidOut (document : Region) (length : Nat) : Prop :=
  ∃ children next,
    document = .node ⟨0, documentName, [], ⟨0, 0⟩⟩ (.closedBy ⟨length, length⟩) children ∧
      Laid 0 1 children length next

end Region

/-- Nested elements are finished as a layout. -/
theorem Builder.Nests.finish {builder : Builder} {length : Nat} (nests : builder.Nests length) :
    (builder.finish length).LaidOut length := by
  refine ⟨_, (builder.abandon builder.opened.length).nextId, rfl, ?_⟩
  have ends := nests.ends.abandon builder.opened.length
  have none := builder.opened_abandon_all
  unfold Ends at ends
  rw [none] at ends
  exact ends

/-- The elements of a text are laid out between its start and its end. -/
theorem Region.tree_laid (rawTags : List String) (text : List Char) :
    (tree rawTags text).LaidOut (width text) := by
  have order := inOrder_tags rawTags (.atStart text)
  have nests := Builder.nests_start.foldl_grow order
  have length : (Cursor.atStart text).offset + width (Cursor.atStart text).rest = width text := by
    simp [Cursor.atStart]
  rw [length] at nests
  exact nests.finish

end SfcIndex.Markup
