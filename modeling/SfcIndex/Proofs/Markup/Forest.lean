import Mathlib.Tactic.NthRewrite
import SfcIndex.Proofs.Markup.Layout

/-! # The nodes of a laid-out forest

The list of all nodes of a forest in document order, and where in it one node stands: first come the
nodes before it, then the node itself with the nodes below it, then the nodes after it
(`Region.Spot`). What a later result says about a node and the others is read off its spot.
-/

namespace SfcIndex.Markup.Region

open Text

/-- The nodes of a forest in document order, each with its place. -/
def forest (parent? : Option Nat) (depth : Nat) (regions : List Region) : List Placed :=
  placedAllOnto parent? depth [] regions

mutual

/-- The places of a region go in front of those that are there. -/
theorem placedOnto_append (parent? : Option Nat) (depth : Nat) (rest : List Placed)
    (region : Region) :
    placedOnto parent? depth rest region = placedOnto parent? depth [] region ++ rest := by
  cases region with
  | node opening ending children =>
    rw [placedOnto, placedOnto, placedAllOnto_append]
    rfl

/-- The places of regions go in front of those that are there. -/
theorem placedAllOnto_append (parent? : Option Nat) (depth : Nat) (rest : List Placed)
    (regions : List Region) :
    placedAllOnto parent? depth rest regions = placedAllOnto parent? depth [] regions ++ rest := by
  cases regions with
  | nil => rfl
  | cons region more =>
    rw [placedAllOnto, placedAllOnto, placedOnto_append, placedAllOnto_append,
      placedOnto_append _ _ (placedAllOnto _ _ _ _), List.append_assoc]

end

@[simp] theorem forest_nil (parent? : Option Nat) (depth : Nat) :
    forest parent? depth [] = [] := rfl

@[simp] theorem forest_cons (parent? : Option Nat) (depth : Nat) (opening : Opening)
    (ending : Ending) (children more : List Region) :
    forest parent? depth (.node opening ending children :: more) =
      ⟨.node opening ending children, parent?, depth⟩ ::
        (forest (some opening.id) (depth + 1) children ++ forest parent? depth more) := by
  rw [forest, placedAllOnto, placedOnto, placedAllOnto_append]
  rfl

/-- The nodes of a document are its own node and the nodes below it. -/
theorem placed_node (opening : Opening) (ending : Ending) (children : List Region) :
    placed (.node opening ending children) =
      ⟨.node opening ending children, none, 0⟩ :: forest (some opening.id) 1 children := rfl

/-- Every one of several regions has its place among them. -/
theorem mem_forest_of_mem {region : Region} {regions : List Region} (member : region ∈ regions)
    (parent? : Option Nat) (depth : Nat) :
    ⟨region, parent?, depth⟩ ∈ forest parent? depth regions := by
  induction regions with
  | nil => simp at member
  | cons first more ih =>
    obtain ⟨opening, ending, children⟩ := first
    rw [forest_cons]
    rcases List.mem_cons.1 member with rfl | later
    · exact List.mem_cons_self
    · exact List.mem_cons_of_mem _ (List.mem_append_right _ (ih later))

end SfcIndex.Markup.Region

namespace SfcIndex.Markup

namespace Laid

open Region

variable {start id stop next : Nat} {regions : List Region}

/-- What the layout of a forest says about each of its nodes. -/
structure Bounds (start id stop next : Nat) (region : Region) : Prop where
  start_le : start ≤ region.tagSpan.start
  nonempty : region.tagSpan.start < region.tagSpan.stop
  tag_le_span : region.tagSpan.stop ≤ region.span.stop
  stop_le : region.span.stop ≤ stop
  id_le : id ≤ region.id
  id_lt : region.id < next

/-- Bounds can be widened. -/
theorem Bounds.widen {start start' id id' stop stop' next next' : Nat} {region : Region}
    (bounds : Bounds start id stop next region) (starts : start' ≤ start) (ids : id' ≤ id)
    (stops : stop ≤ stop') (nexts : next ≤ next') : Bounds start' id' stop' next' region :=
  ⟨Nat.le_trans starts bounds.start_le, bounds.nonempty, bounds.tag_le_span,
    Nat.le_trans bounds.stop_le stops, Nat.le_trans ids bounds.id_le,
    Nat.lt_of_lt_of_le bounds.id_lt nexts⟩

/-- Every region of a layout lies in its bounds. -/
theorem bounds (laid : Laid start id regions stop next) {parent? : Option Nat} {depth : Nat}
    {place : Placed} (member : place ∈ forest parent? depth regions) :
    Bounds start id stop next place.region := by
  induction laid using Laid.induction_elements generalizing parent? depth with
  | nil => simp at member
  | cons element inside later _ inner outer =>
    have contents := inside.start_le_stop
    have numbers := inside.id_le_next
    have stops := later.start_le_stop
    have nexts := later.id_le_next
    have ⟨numbered, after, nonempty, tag_le_span, span_le, inner_le, _, _, _⟩ := element
    rw [forest_cons] at member
    rcases List.mem_cons.1 member with rfl | other
    · exact ⟨after, nonempty, tag_le_span, Nat.le_trans span_le stops, numbered.ge, by
        rw [id_node]
        omega⟩
    · rcases List.mem_append.1 other with below | behind
      · exact (inner below).widen (by omega) (by omega) (by omega) (by omega)
      · exact (outer behind).widen (by omega) (by omega) (Nat.le_refl _) (Nat.le_refl _)

/-- The content of a region ends inside the layout. -/
theorem content_stop_le (laid : Laid start id regions stop next) {region : Region}
    (member : region ∈ regions) {content : Span} (is : region.contentSpan? = some content) :
    content.stop ≤ stop := by
  induction laid using Laid.induction_elements with
  | nil => simp at member
  | cons element inside later _ _ outer =>
    rcases List.mem_cons.1 member with rfl | behind
    · obtain ⟨rfl, -⟩ := element.content content is
      exact Nat.le_trans element.inner_le later.start_le_stop
    · exact outer behind

/-- The parent of a node is the parent of the whole forest, or a node of the forest before it. -/
theorem parent_cases (laid : Laid start id regions stop next) {parent? : Option Nat} {depth : Nat}
    {place : Placed} (member : place ∈ forest parent? depth regions) :
    place.parent? = parent? ∨
      ∃ parent, place.parent? = some parent ∧ id ≤ parent ∧ parent < place.region.id := by
  induction laid using Laid.induction_elements generalizing parent? depth with
  | nil => simp at member
  | cons element inside later _ inner outer =>
    have numbered := element.numbered
    rw [forest_cons] at member
    rcases List.mem_cons.1 member with rfl | other
    · exact .inl rfl
    · rcases List.mem_append.1 other with below | behind
      · have := (inside.bounds below).id_le
        obtain same | ⟨parent, is, low, high⟩ := inner below
        · exact .inr ⟨_, same, by omega, by omega⟩
        · exact .inr ⟨parent, is, by omega, high⟩
      · have := inside.id_le_next
        obtain same | ⟨parent, is, low, high⟩ := outer behind
        · exact .inl same
        · exact .inr ⟨parent, is, by omega, high⟩

/-- No parent of a node lies between the parent of the whole forest and the forest. -/
theorem parent_apart (laid : Laid start id regions stop next) {parent? : Option Nat}
    {depth low : Nat}
    (above : ∀ parent, parent? = some parent → parent < low) {place : Placed}
    (member : place ∈ forest parent? depth regions) {parent : Nat}
    (is : place.parent? = some parent) : parent < low ∨ id ≤ parent := by
  obtain same | ⟨other, is', atLeast, -⟩ := laid.parent_cases member
  · exact .inl (above parent (same ▸ is))
  · cases is.symm.trans is'
    exact .inr atLeast

end Laid

namespace Region

/-- Where a node stands among all nodes: between those before it and those after it come the node
and the forest below it, which is laid out up to `stop` and numbered up to `next`. -/
structure Spot (nodes : List Placed) (place : Placed) (limit : Nat) where
  before : List Placed
  after : List Placed
  stop : Nat
  next : Nat
  nodes_eq : nodes = before ++ place ::
    (forest (some place.region.id) (place.depth + 1) place.region.children ++ after)
  laid : Laid place.region.tagSpan.stop (place.region.id + 1) place.region.children stop next
  next_le : next ≤ limit
  childless : place.region.ending = .selfClosing → place.region.children = []
  content : ∀ span, place.region.contentSpan? = some span →
    span = ⟨place.region.tagSpan.stop, stop⟩ ∧ stop ≤ place.region.span.stop
  before_id : ∀ earlier ∈ before, earlier.region.id < place.region.id
  before_stop : ∀ earlier ∈ before, earlier.region.tagSpan.stop ≤ place.region.tagSpan.start
  after_id : ∀ later ∈ after, next ≤ later.region.id
  after_start : ∀ later ∈ after, place.region.span.stop ≤ later.region.tagSpan.start
  after_parent : ∀ later ∈ after, ∀ parent, later.parent? = some parent →
    parent < place.region.id ∨ next ≤ parent

namespace Spot

variable {nodes : List Placed} {place : Placed} {limit limit' : Nat}

/-- The spot of a node among more nodes, some of them before and some after the others. -/
def among (spot : Spot nodes place limit) {all : List Placed} (front back : List Placed)
    (all_eq : all = front ++ (nodes ++ back)) (limit_le : limit ≤ limit')
    (front_id : ∀ earlier ∈ front, earlier.region.id < place.region.id)
    (front_stop : ∀ earlier ∈ front, earlier.region.tagSpan.stop ≤ place.region.tagSpan.start)
    (back_id : ∀ later ∈ back, limit ≤ later.region.id)
    (back_start : ∀ later ∈ back, place.region.span.stop ≤ later.region.tagSpan.start)
    (back_parent : ∀ later ∈ back, ∀ parent, later.parent? = some parent →
      parent < place.region.id ∨ limit ≤ parent) : Spot all place limit' where
  before := front ++ spot.before
  after := spot.after ++ back
  stop := spot.stop
  next := spot.next
  nodes_eq := by
    rw [all_eq]
    nth_rewrite 1 [spot.nodes_eq]
    simp only [List.append_assoc, List.cons_append]
  laid := spot.laid
  next_le := Nat.le_trans spot.next_le limit_le
  childless := spot.childless
  content := spot.content
  before_id := by
    intro earlier member
    rcases List.mem_append.1 member with far | near
    · exact front_id earlier far
    · exact spot.before_id earlier near
  before_stop := by
    intro earlier member
    rcases List.mem_append.1 member with far | near
    · exact front_stop earlier far
    · exact spot.before_stop earlier near
  after_id := by
    intro later member
    rcases List.mem_append.1 member with near | far
    · exact spot.after_id later near
    · exact Nat.le_trans spot.next_le (back_id later far)
  after_start := by
    intro later member
    rcases List.mem_append.1 member with near | far
    · exact spot.after_start later near
    · exact back_start later far
  after_parent := by
    intro later member parent is
    rcases List.mem_append.1 member with near | far
    · exact spot.after_parent later near parent is
    · exact (back_parent later far parent is).imp_right (Nat.le_trans spot.next_le)

end Spot

end Region

namespace Laid

open Region

variable {start id stop next : Nat} {regions : List Region}

/-- Every node of a laid-out forest has its spot. -/
theorem spot (laid : Laid start id regions stop next) {parent? : Option Nat} {depth : Nat}
    (above : ∀ parent, parent? = some parent → parent < id) {place : Placed}
    (member : place ∈ forest parent? depth regions) :
    Nonempty (Spot (forest parent? depth regions) place next) := by
  induction laid using Laid.induction_elements generalizing parent? depth with
  | nil => simp at member
  | cons element inside later _ inner outer =>
    have ⟨numbered, _, nonempty, _, span_le, inner_le, childless, content, _⟩ := element
    have numbers := inside.id_le_next
    rw [forest_cons] at member ⊢
    rcases List.mem_cons.1 member with rfl | other
    · -- The node itself: everything else of the forest comes below or after it.
      refine ⟨⟨[], _, _, _, rfl, ?_, later.id_le_next, childless, content, by simp, by simp,
        fun node behind => (later.bounds behind).id_le,
        fun node behind => Nat.le_trans span_le (later.bounds behind).start_le, ?_⟩⟩
      · rw [id_node, numbered]
        exact inside
      · intro node behind parent is
        rw [id_node, numbered]
        exact later.parent_apart above behind is
    · rcases List.mem_append.1 other with below | behind
      · obtain ⟨spot⟩ := inner (fun parent is => by cases is; omega) below
        have bounds := inside.bounds below
        have low := bounds.id_le
        have high := bounds.stop_le
        refine ⟨spot.among [_] _ rfl later.id_le_next ?_ ?_
          (fun node behind => (later.bounds behind).id_le) ?_ ?_⟩
        · intro node first
          cases List.mem_singleton.1 first
          rw [id_node]
          omega
        · intro node first
          cases List.mem_singleton.1 first
          exact bounds.start_le
        · intro node behind
          have := (later.bounds behind).start_le
          omega
        · intro node behind parent is
          exact (later.parent_apart above behind is).imp_left (by omega)
      · obtain ⟨spot⟩ := outer (fun parent is => by have := above parent is; omega) behind
        have bounds := later.bounds behind
        have low := bounds.id_le
        have start := bounds.start_le
        refine ⟨spot.among (_ :: forest _ _ _) [] (by rw [List.append_nil]; rfl) (Nat.le_refl _)
          ?_ ?_ (by simp) (by simp) (by simp)⟩
        · intro node first
          rcases List.mem_cons.1 first with rfl | below
          · rw [id_node]
            omega
          · have := (inside.bounds below).id_lt
            omega
        · intro node first
          rcases List.mem_cons.1 first with rfl | below
          · rw [tagSpan_node]
            have := element.tag_le_span
            omega
          · have := (inside.bounds below).tag_le_span
            have := (inside.bounds below).stop_le
            omega

end Laid

namespace Region.LaidOut

variable {document : Region} {length : Nat} {place : Placed}

/-- The nodes of a document are its own node, which has no parent, and those of its elements. -/
theorem placed_cases (laidOut : document.LaidOut length) (member : place ∈ document.placed) :
    place = ⟨document, none, 0⟩ ∨ place ∈ forest (some 0) 1 document.children := by
  obtain ⟨children, next, rfl, laid⟩ := laidOut
  exact List.mem_cons.1 member

/-- The document has the number zero. -/
theorem id_eq_zero (laidOut : document.LaidOut length) : document.id = 0 := by
  obtain ⟨children, next, rfl, laid⟩ := laidOut
  rfl

/-- Every node of a document has its spot. -/
theorem spot (laidOut : document.LaidOut length) (member : place ∈ document.placed) :
    ∃ limit, Nonempty (Spot document.placed place limit) := by
  obtain ⟨children, next, rfl, laid⟩ := laidOut
  refine ⟨next, ?_⟩
  rw [placed_node] at member ⊢
  rcases List.mem_cons.1 member with rfl | below
  · refine ⟨⟨[], [], length, next, by simp, laid, Nat.le_refl _, by simp, ?_, by simp, by simp,
      by simp, by simp, by simp⟩⟩
    intro span is
    rw [contentSpan?_closedBy] at is
    exact ⟨(Option.some.inj is).symm, Nat.le_refl _⟩
  · obtain ⟨spot⟩ := laid.spot (fun parent is => by cases is; exact Nat.one_pos) below
    have bounds := laid.bounds below
    refine ⟨spot.among [_] [] (by rw [List.append_nil]; rfl) (Nat.le_refl _) ?_ ?_ (by simp)
      (by simp) (by simp)⟩
    · intro node first
      cases List.mem_singleton.1 first
      exact bounds.id_le
    · intro node first
      cases List.mem_singleton.1 first
      exact bounds.start_le

/-- A node that is not the document is an element of it. -/
theorem bounds (laidOut : document.LaidOut length) (member : place ∈ document.placed)
    (element : place.region.isRoot = false) :
    ∃ next, Laid.Bounds 0 1 length next place.region := by
  obtain rfl | below := laidOut.placed_cases member
  · simp [isRoot, laidOut.id_eq_zero] at element
  · obtain ⟨children, next, rfl, laid⟩ := laidOut
    exact ⟨next, laid.bounds below⟩

/-- A tag does not end in front of its start. -/
theorem tag_start_le_stop (laidOut : document.LaidOut length) (member : place ∈ document.placed) :
    place.region.tagSpan.start ≤ place.region.tagSpan.stop := by
  obtain ⟨children, next, rfl, laid⟩ := laidOut
  rcases List.mem_cons.1 member with rfl | below
  · exact Nat.le_refl _
  · exact Nat.le_of_lt (laid.bounds below).nonempty

/-- The document and every closed element have a content. -/
theorem exists_content (laidOut : document.LaidOut length) (member : place ∈ document.placed)
    (closed : place.region.isRoot = true ∨ ∃ tag, place.region.ending = .closedBy tag) :
    ∃ content, place.region.contentSpan? = some content := by
  have closedBy : ∃ tag, place.region.ending = .closedBy tag := by
    rcases closed with root | closed
    · obtain ⟨children, next, rfl, laid⟩ := laidOut
      rcases List.mem_cons.1 member with rfl | below
      · exact ⟨_, rfl⟩
      · have low := (laid.bounds below).id_le
        have zero : place.region.id = 0 := of_decide_eq_true root
        omega
    · exact closed
  obtain ⟨tag, is⟩ := closedBy
  obtain ⟨⟨opening, ending, children⟩, parent?, depth⟩ := place
  cases is
  exact ⟨_, rfl⟩

end Region.LaidOut

end SfcIndex.Markup
