import SfcIndex.Proofs.Markup.LongText
import SfcIndex.Proofs.Markup.Numbers

/-! # The order of nodes

Nodes are numbered in document order, which is also the order of their opening tags. The children of
a node are exactly the nodes whose parent it is, from left to right and without overlap, and only
the last of them can be without a closing tag (`Region.parse_ordered`).
-/

namespace SfcIndex.Markup

open Text

/-- The nodes of a tree are in order. -/
structure Region.Ordered (document : Region) : Prop where
  /-- The number of a node is its place in document order. -/
  numbered : document.placed.map (·.region.id) = List.range document.placed.length
  listed_once : ∀ parent ∈ document.placed, ∀ child ∈ document.placed,
    (parent.region.children.map Region.id).count child.region.id =
      if child.parent? = some parent.region.id then 1 else 0
  parent_lt : ∀ child ∈ document.placed, ∀ parent, child.parent? = some parent →
    parent < child.region.id
  children_increasing : ∀ parent ∈ document.placed,
    (parent.region.children.map Region.id).Pairwise (· < ·)
  tags_ordered : ∀ index first second, document.placed[index]? = some first →
    document.placed[index + 1]? = some second →
    first.region.tagSpan.stop ≤ second.region.tagSpan.start
  siblings_apart : ∀ parent ∈ document.placed, ∀ index first second,
    parent.region.children[index]? = some first →
    parent.region.children[index + 1]? = some second → first.span.stop ≤ second.tagSpan.start
  unclosed_last : ∀ child ∈ document.placed, child.region.ending = .unclosed →
    ∃ parent ∈ document.placed, child.parent? = some parent.region.id ∧
      parent.region.children.getLast? = some child.region
  selfClosing_childless : ∀ place ∈ document.placed, place.region.isSelfClosing →
    place.region.children = []

namespace Laid

open Region

variable {start id stop next : Nat} {regions : List Region}

/-- The nodes of a forest are numbered one after the other. -/
theorem ids_forest (laid : Laid start id regions stop next) (parent? : Option Nat) (depth : Nat) :
    (forest parent? depth regions).map (·.region.id) = List.range' id (next - id) := by
  induction laid using Laid.induction_elements generalizing parent? depth with
  | nil => simp
  | @cons start id stop next inner last middle opening ending children more element inside later _
      inner outer =>
    have low := inside.id_le_next
    have high := later.id_le_next
    have split : next - id = (middle - (id + 1)) + (next - middle) + 1 := by omega
    have second : middle = id + 1 + (middle - (id + 1)) := by omega
    rw [forest_cons, List.map_cons, List.map_append, inner, outer, split, List.range'_succ, id_node,
      element.numbered, ← List.range'_append_1, ← second]

/-- Opening tags follow one another in document order. -/
theorem tags_pairwise (laid : Laid start id regions stop next) (parent? : Option Nat)
    (depth : Nat) :
    (forest parent? depth regions).Pairwise fun first second =>
      first.region.tagSpan.stop ≤ second.region.tagSpan.start := by
  induction laid using Laid.induction_elements generalizing parent? depth with
  | nil => simp
  | cons element inside later _ inner outer =>
    have between := element.inner_le
    have tag_le := Nat.le_trans element.tag_le_span element.span_le
    rw [forest_cons, List.pairwise_cons, List.pairwise_append]
    refine ⟨?_, inner _ _, outer _ _, ?_⟩
    · intro node member
      rcases List.mem_append.1 member with below | behind
      · exact (inside.bounds below).start_le
      · exact Nat.le_trans tag_le (later.bounds behind).start_le
    · intro first below second behind
      have := (inside.bounds below).tag_le_span
      have := (inside.bounds below).stop_le
      have := (later.bounds behind).start_le
      omega

/-- Siblings follow one another. -/
theorem siblings_pairwise (laid : Laid start id regions stop next) :
    regions.Pairwise fun first second =>
      first.id < second.id ∧ first.span.stop ≤ second.tagSpan.start := by
  induction laid using Laid.induction_elements with
  | nil => simp
  | cons element inside later _ _ outer =>
    rw [List.pairwise_cons]
    refine ⟨?_, outer⟩
    intro sibling member
    have bounds : Bounds _ _ _ _ sibling := later.bounds (mem_forest_of_mem member none 0)
    have low := inside.id_le_next
    have high := bounds.id_le
    have numbered := element.numbered
    exact ⟨by rw [id_node]; omega, Nat.le_trans element.span_le bounds.start_le⟩

/-- The roots of a forest are its nodes that have the parent of the forest. -/
theorem filter_parent (laid : Laid start id regions stop next) {parent : Nat} (above : parent < id)
    (depth : Nat) :
    ((forest (some parent) depth regions).filter (·.parent? = some parent)).map (·.region) =
      regions := by
  induction laid using Laid.induction_elements generalizing depth with
  | nil => simp
  | @cons start id stop next inner last middle opening ending children more element inside later _
      inner outer =>
    have numbers := inside.id_le_next
    have numbered := element.numbered
    have none : (forest (some opening.id) (depth + 1) children).filter
        (·.parent? = some parent) = [] := by
      rw [List.filter_eq_nil_iff]
      intro node below is
      rw [decide_eq_true_iff] at is
      obtain same | ⟨other, is', low, -⟩ := inside.parent_cases below
      · cases is.symm.trans same
        omega
      · cases is.symm.trans is'
        omega
    rw [forest_cons, List.filter_cons_of_pos (by simp), List.filter_append, none, List.nil_append,
      List.map_cons, outer (by omega) depth]

/-- Nothing comes after an element without a closing tag. -/
theorem getLast?_unclosed (laid : Laid start id regions stop next) {region : Region}
    (member : region ∈ regions) (unclosed : region.ending = .unclosed) :
    regions.getLast? = some region := by
  induction laid using Laid.induction_elements with
  | nil => simp at member
  | cons element inside later _ _ outer =>
    rcases List.mem_cons.1 member with rfl | behind
    · rw [element.unfollowed unclosed]
      rfl
    · rw [List.getLast?_cons, outer behind]
      rfl

end Laid

namespace Region

namespace LaidOut

variable {document : Region} {length : Nat}

/-- The nodes of a laid-out document are numbered. -/
theorem numbered (laidOut : document.LaidOut length) : document.Numbered := by
  have ids : ∃ count, document.placed.map (·.region.id) = List.range count := by
    obtain ⟨children, next, rfl, laid⟩ := laidOut
    refine ⟨next - 1 + 1, ?_⟩
    rw [placed_node, List.map_cons, laid.ids_forest, List.range_eq_range', List.range'_succ]
    rfl
  obtain ⟨count, ids⟩ := ids
  have size := congrArg List.length ids
  rw [List.length_map, List.length_range] at size
  rw [Numbered, ids, size]

/-- The children of a node are the nodes whose parent it is, in document order. -/
theorem filter_parent (laidOut : document.LaidOut length) {parent : Placed}
    (member : parent ∈ document.placed) :
    (document.placed.filter (·.parent? = some parent.region.id)).map (·.region) =
      parent.region.children := by
  obtain ⟨limit, ⟨spot⟩⟩ := laidOut.spot member
  have numbers := spot.laid.id_le_next
  have not_before : spot.before.filter (·.parent? = some parent.region.id) = [] := by
    rw [List.filter_eq_nil_iff]
    intro node before is
    have known : node ∈ document.placed := by
      rw [spot.nodes_eq]
      exact List.mem_append_left _ before
    have := laidOut.numbered.parent_lt known (of_decide_eq_true is)
    have := spot.before_id node before
    omega
  have not_after : spot.after.filter (·.parent? = some parent.region.id) = [] := by
    rw [List.filter_eq_nil_iff]
    intro node after is
    have := spot.after_parent node after _ (of_decide_eq_true is)
    omega
  have not_itself : parent.parent? ≠ some parent.region.id := by
    intro is
    have := laidOut.numbered.parent_lt member is
    omega
  rw [spot.nodes_eq, List.filter_append, not_before, List.nil_append,
    List.filter_cons_of_neg (by simpa using not_itself), List.filter_append, not_after,
    List.append_nil,
    spot.laid.filter_parent (Nat.lt_succ_self _)]

/-- A child is listed once under its parent and nowhere else. -/
theorem listed_once (laidOut : document.LaidOut length) {parent child : Placed}
    (above : parent ∈ document.placed) (below : child ∈ document.placed) :
    (parent.region.children.map Region.id).count child.region.id =
      if child.parent? = some parent.region.id then 1 else 0 := by
  have ids : parent.region.children.map Region.id =
      (document.placed.filter (·.parent? = some parent.region.id)).map (·.region.id) := by
    rw [← laidOut.filter_parent above, List.map_map]
    rfl
  have nodup : (parent.region.children.map Region.id).Nodup := by
    rw [ids]
    exact laidOut.numbered.ids_nodup.sublist (List.filter_sublist.map _)
  have listed : child.region.id ∈ parent.region.children.map Region.id ↔
      child.parent? = some parent.region.id := by
    rw [ids, List.mem_map]
    constructor
    · rintro ⟨node, found, same⟩
      obtain ⟨member, is⟩ := List.mem_filter.1 found
      cases laidOut.numbered.eq_of_id_eq member below same
      exact of_decide_eq_true is
    · intro is
      exact ⟨child, List.mem_filter.2 ⟨below, decide_eq_true is⟩, rfl⟩
  rw [nodup.count]
  exact if_congr listed rfl rfl

/-- Opening tags follow one another in document order. -/
theorem tags_ordered (laidOut : document.LaidOut length) :
    document.placed.Pairwise fun first second =>
      first.region.tagSpan.stop ≤ second.region.tagSpan.start := by
  obtain ⟨children, next, rfl, laid⟩ := laidOut
  rw [placed_node, List.pairwise_cons]
  exact ⟨fun node _ => Nat.zero_le _, laid.tags_pairwise _ _⟩

/-- An element without a closing tag is the last child of its parent. -/
theorem unclosed_last (laidOut : document.LaidOut length) {child : Placed}
    (member : child ∈ document.placed) (unclosed : child.region.ending = .unclosed) :
    ∃ parent ∈ document.placed, child.parent? = some parent.region.id ∧
      parent.region.children.getLast? = some child.region := by
  have linked : ∃ id, child.parent? = some id := by
    obtain rfl | below := laidOut.placed_cases member
    · obtain ⟨children, next, rfl, laid⟩ := laidOut
      simp at unclosed
    · obtain ⟨children, next, rfl, laid⟩ := laidOut
      obtain same | ⟨id, is, -⟩ := laid.parent_cases below
      · exact ⟨_, same⟩
      · exact ⟨id, is⟩
  obtain ⟨id, is⟩ := linked
  obtain ⟨parent, above, rfl⟩ := exists_parent member is
  refine ⟨parent, above, is, ?_⟩
  have listed : child.region ∈ parent.region.children := by
    rw [← laidOut.filter_parent above]
    exact List.mem_map_of_mem (List.mem_filter.2 ⟨member, decide_eq_true is⟩)
  obtain ⟨limit, ⟨spot⟩⟩ := laidOut.spot above
  exact spot.laid.getLast?_unclosed listed unclosed

/-- The nodes of a laid-out document are in order. -/
theorem ordered (laidOut : document.LaidOut length) : document.Ordered where
  numbered := laidOut.numbered
  listed_once := fun _ above _ below => laidOut.listed_once above below
  parent_lt := fun _ member _ is => laidOut.numbered.parent_lt member is
  children_increasing := by
    intro parent member
    obtain ⟨limit, ⟨spot⟩⟩ := laidOut.spot member
    exact List.pairwise_map.2 (spot.laid.siblings_pairwise.imp And.left)
  tags_ordered := by
    intro index first second atIndex atNext
    obtain ⟨below, rfl⟩ := List.getElem?_eq_some_iff.1 atIndex
    obtain ⟨below', rfl⟩ := List.getElem?_eq_some_iff.1 atNext
    exact List.pairwise_iff_getElem.1 laidOut.tags_ordered _ _ below below' (Nat.lt_succ_self _)
  siblings_apart := by
    intro parent member index first second atIndex atNext
    obtain ⟨limit, ⟨spot⟩⟩ := laidOut.spot member
    obtain ⟨below, rfl⟩ := List.getElem?_eq_some_iff.1 atIndex
    obtain ⟨below', rfl⟩ := List.getElem?_eq_some_iff.1 atNext
    exact (List.pairwise_iff_getElem.1 spot.laid.siblings_pairwise _ _ below below'
      (Nat.lt_succ_self _)).2
  unclosed_last := fun _ member unclosed => laidOut.unclosed_last member unclosed
  selfClosing_childless := by
    intro place member selfClosing
    obtain ⟨limit, ⟨spot⟩⟩ := laidOut.spot member
    exact spot.childless (of_decide_eq_true selfClosing)

end LaidOut

/-- The nodes of the tree of every text that ends below the limit of offsets are in order. -/
theorem parse_ordered (rawTags : List String) {text : List Char}
    (fits : width text ≤ Offset.limit) :
    ∃ document, parse rawTags text = .ok document ∧ document.Ordered :=
  ⟨_, parse_eq_ok rawTags fits, (tree_laid rawTags text).ordered⟩

/-- So they are when `b` is cut short by the end of `a`, and `c` is never closed. -/
theorem parse_ordered_unclosed :
    width "<a><b></a></b><c><d/>".toList ≤ Offset.limit ∧
      ∃ document, parse [] "<a><b></a></b><c><d/>".toList = .ok document ∧ document.Ordered :=
  ⟨by decide, parse_ordered [] (by decide)⟩

/-- They are not in a text that is too long: the second element of `backText` is kept as if it
started inside the tag of the first. -/
theorem parse_ordered_tooLong :
    ∃ document, parse [] backText = .ok document ∧ ¬ document.Ordered := by
  refine ⟨_, parse_backText, fun ordered => ?_⟩
  have order := ordered.tags_ordered 1 _ _ (List.getElem?_eq_getElem (by decide +kernel))
    (List.getElem?_eq_getElem (by decide +kernel))
  revert order
  decide +kernel

end Region

end SfcIndex.Markup
