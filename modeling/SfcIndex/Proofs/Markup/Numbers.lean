import Mathlib.Data.List.Nodup
import Mathlib.Logic.Relation
import SfcIndex.Proofs.Markup.Openings

/-! # Nodes and their numbers

However a text is read, the nodes of its tree are numbered in document order
(`Region.numbered_of_parse`), whatever the spans of the nodes are. So the number of a parent leads
to the node that has the other one among its children, and the nodes that are reached from a node by
parent links are those of the subtree below it (`Region.Numbered.properAncestor_iff`).
-/

namespace SfcIndex.Markup

open Text

namespace Region

/-- The nodes of a document are numbered in document order. -/
def Numbered (document : Region) : Prop :=
  document.placed.map (·.region.id) = List.range document.placed.length

/-- Two nodes of a tree of which the second names the first as its parent. -/
structure ParentOf (document : Region) (parent child : Placed) : Prop where
  above : parent ∈ document.placed
  below : child ∈ document.placed
  link : child.parent? = some parent.region.id

/-- A node that is reached from another one through one or more parent links. -/
def ProperAncestor (document : Region) : Placed → Placed → Prop :=
  Relation.TransGen (ParentOf document)

/-- A node and all nodes below it, in document order. -/
def Placed.subtree (place : Placed) : List Placed :=
  place :: forest (some place.region.id) (place.depth + 1) place.region.children

/-- The regions of a subtree are the descendants of its root. -/
theorem map_region_subtree (place : Placed) :
    place.subtree.map (·.region) = place.region.descendants := by
  obtain ⟨⟨opening, ending, children⟩, parent?, depth⟩ := place
  rw [Placed.subtree, List.map_cons, map_region_forest, descendants_node]
  rfl

/-- The nodes of a document are those of a forest of one tree. -/
theorem placed_eq_forest (document : Region) : document.placed = forest none 0 [document] := by
  obtain ⟨opening, ending, children⟩ := document
  rw [forest_cons, forest_nil, List.append_nil, placed_node]

section Forest

variable {parent? : Option Nat} {depth : Nat} {regions : List Region} {place : Placed}

/-- A node of a forest is one of its roots, or it is a child of a node that comes before it. -/
theorem forest_cases (member : place ∈ forest parent? depth regions) :
    (place.parent? = parent? ∧ place.depth = depth ∧ place.region ∈ regions) ∨
      ∃ above, [above, place].Sublist (forest parent? depth regions) ∧
        place.parent? = some above.region.id ∧ place.depth = above.depth + 1 ∧
        place.region ∈ above.region.children := by
  fun_induction openings regions generalizing parent? depth with
  | case1 => cases member
  | case2 opening ending children more inner outer =>
    rw [forest_cons] at member ⊢
    rcases List.mem_cons.1 member with rfl | other
    · exact .inl ⟨rfl, rfl, List.mem_cons_self⟩
    · rcases List.mem_append.1 other with below | behind
      · right
        rcases inner below with root | ⟨above, before, rest⟩
        · exact ⟨_, .cons_cons _ (List.singleton_sublist.2 other), root⟩
        · exact ⟨above, .cons _ (before.trans (List.sublist_append_left _ _)), rest⟩
      · rcases outer behind with ⟨linked, level, listed⟩ | ⟨above, before, rest⟩
        · exact .inl ⟨linked, level, List.mem_cons_of_mem _ listed⟩
        · exact .inr ⟨above, .cons _ (before.trans (List.sublist_append_right _ _)), rest⟩

/-- The subtree of a node is a part of the forest that the node is in. -/
theorem subtree_stands (member : place ∈ forest parent? depth regions) :
    place.subtree <:+: forest parent? depth regions := by
  fun_induction openings regions generalizing parent? depth with
  | case1 => cases member
  | case2 opening ending children more inner outer =>
    rw [forest_cons] at member ⊢
    rcases List.mem_cons.1 member with rfl | other
    · exact ⟨[], forest parent? depth more, rfl⟩
    · rcases List.mem_append.1 other with below | behind
      · exact List.infix_cons ((inner below).trans (List.prefix_append _ _).isInfix)
      · exact List.infix_cons ((outer behind).trans (List.suffix_append _ _).isInfix)

/-- Everything in a forest is below the node that the forest hangs from. -/
theorem descends {document : Region} {top : Placed} (known : top ∈ document.placed)
    (inside : forest (some top.region.id) depth regions ⊆ document.placed)
    (member : place ∈ forest (some top.region.id) depth regions) :
    document.ProperAncestor top place := by
  fun_induction openings regions generalizing top depth with
  | case1 => cases member
  | case2 opening ending children more inner outer =>
    rw [forest_cons, List.cons_subset, List.append_subset] at inside
    rw [forest_cons] at member
    obtain ⟨first, deeper, later⟩ := inside
    have step : document.ProperAncestor top _ := .single ⟨known, first, rfl⟩
    rcases List.mem_cons.1 member with rfl | other
    · exact step
    · rcases List.mem_append.1 other with below | behind
      · exact step.trans (inner first deeper below)
      · exact outer known later behind

end Forest

section Placed

variable {document : Region} {place : Placed}

/-- A node that names a parent is a child of a node that comes before it. -/
theorem exists_above (member : place ∈ document.placed) {id : Nat}
    (is : place.parent? = some id) :
    ∃ above, [above, place].Sublist document.placed ∧ above.region.id = id ∧
      place.depth = above.depth + 1 ∧ place.region ∈ above.region.children := by
  rw [placed_eq_forest] at member ⊢
  rcases forest_cases member with ⟨root, -⟩ | ⟨above, before, linked, rest⟩
  · cases is.symm.trans root
  · exact ⟨above, before, Option.some.inj (linked.symm.trans is), rest⟩

/-- Only the document has no parent. -/
theorem eq_document_of_parentless (member : place ∈ document.placed)
    (none : place.parent? = Option.none) : place = ⟨document, Option.none, 0⟩ := by
  rw [placed_eq_forest] at member
  rcases forest_cases member with ⟨root, level, listed⟩ | ⟨above, -, linked, -⟩
  · obtain ⟨region, parent?, depth⟩ := place
    cases List.mem_singleton.1 listed
    cases root
    cases level
    rfl
  · cases none.symm.trans linked

/-- A link to a parent leads to a node. -/
theorem exists_parent (member : place ∈ document.placed) {id : Nat}
    (is : place.parent? = some id) : ∃ parent ∈ document.placed, parent.region.id = id := by
  obtain ⟨above, before, same, -⟩ := exists_above member is
  exact ⟨above, before.mem List.mem_cons_self, same⟩

/-- The subtree of a node is a part of the document. -/
theorem subtree_stands_placed (member : place ∈ document.placed) :
    place.subtree <:+: document.placed := by
  rw [placed_eq_forest] at member ⊢
  exact subtree_stands member

end Placed

namespace Numbered

variable {document : Region} {place parent child outer inner : Placed}

/-- The numbers of nodes increase in document order. -/
theorem pairwise (numbered : document.Numbered) :
    document.placed.Pairwise fun first second => first.region.id < second.region.id := by
  have ids : (document.placed.map (·.region.id)).Pairwise (· < ·) := by
    rw [numbered]
    exact List.pairwise_lt_range
  exact List.pairwise_map.1 ids

/-- No number is given twice. -/
theorem ids_nodup (numbered : document.Numbered) :
    (document.placed.map (·.region.id)).Nodup := by
  rw [numbered]
  exact List.nodup_range

/-- Two nodes with the same number are the same. -/
theorem eq_of_id_eq (numbered : document.Numbered) (left : parent ∈ document.placed)
    (right : child ∈ document.placed) (same : parent.region.id = child.region.id) :
    parent = child :=
  List.inj_on_of_nodup_map numbered.ids_nodup left right same

/-- A parent comes before its child. -/
theorem parent_lt (numbered : document.Numbered) (member : child ∈ document.placed) {id : Nat}
    (is : child.parent? = some id) : id < child.region.id := by
  obtain ⟨above, before, rfl, -⟩ := exists_above member is
  exact List.rel_of_pairwise_cons (numbered.pairwise.sublist before) List.mem_cons_self

/-- A node that is named as a parent has the other one among its children, one step further from the
document. -/
theorem child_of_link (numbered : document.Numbered) (above : parent ∈ document.placed)
    (below : child ∈ document.placed) (link : child.parent? = some parent.region.id) :
    child.depth = parent.depth + 1 ∧ child.region ∈ parent.region.children := by
  obtain ⟨other, before, same, rest⟩ := exists_above below link
  rw [numbered.eq_of_id_eq above (before.mem List.mem_cons_self) same.symm]
  exact rest

/-- The nodes that a node is an ancestor of are those of the forest below it. -/
theorem properAncestor_iff (numbered : document.Numbered) (known : outer ∈ document.placed) :
    document.ProperAncestor outer inner ↔
      inner ∈ forest (some outer.region.id) (outer.depth + 1) outer.region.children := by
  -- A child stands in the forest that hangs from its parent.
  have stands : ∀ {parent child : Placed}, document.ParentOf parent child →
      child ∈ forest (some parent.region.id) (parent.depth + 1) parent.region.children := by
    intro parent child step
    obtain ⟨level, listed⟩ := numbered.child_of_link step.above step.below step.link
    have same : child = ⟨child.region, some parent.region.id, parent.depth + 1⟩ := by
      rw [← step.link, ← level]
    rw [same]
    exact mem_forest_of_mem listed _ _
  constructor
  · intro ancestor
    induction ancestor with
    | single step => exact stands step
    | tail _ step ih => exact (subtree_stands ih).mem (List.mem_cons_of_mem _ (stands step))
  · intro below
    refine descends known ?_ below
    intro node inside
    exact (subtree_stands_placed known).mem (List.mem_cons_of_mem _ inside)

/-- An ancestor has the smaller number. -/
theorem id_lt_of_properAncestor (numbered : document.Numbered)
    (ancestor : document.ProperAncestor outer inner) : outer.region.id < inner.region.id := by
  induction ancestor with
  | single step => exact numbered.parent_lt step.below step.link
  | tail _ step ih => exact Nat.lt_trans ih (numbered.parent_lt step.below step.link)

/-- Every number below the number of nodes is the number of a node. -/
theorem find?_eq (numbered : document.Numbered) {id : Nat} (below : id < document.placed.length) :
    ∃ place ∈ document.placed, document.find? id = some place ∧ place.region.id = id := by
  have present : id ∈ document.placed.map (·.region.id) := by
    rw [numbered, List.mem_range]
    exact below
  obtain ⟨place, member, rfl⟩ := List.mem_map.1 present
  cases found : document.find? place.region.id with
  | none => exact absurd (decide_eq_true rfl) (List.find?_eq_none.1 found place member)
  | some other =>
    have same := List.find?_some found
    exact ⟨other, List.mem_of_find?_eq_some found, rfl, of_decide_eq_true same⟩

/-- The numbers of a subtree follow one another. -/
theorem ids_subtree (numbered : document.Numbered) (member : place ∈ document.placed) :
    place.subtree.map (·.region.id) =
      List.range' place.region.id place.subtree.length := by
  obtain ⟨front, back, whole⟩ := subtree_stands_placed member
  have ids : document.placed.map (·.region.id) = _ := numbered
  rw [← whole, List.map_append, List.range_eq_range', eq_comm] at ids
  obtain ⟨count, -, first, -⟩ := List.range'_eq_append_iff.1 ids
  rw [List.map_append, eq_comm] at first
  obtain ⟨start, -, -, ids⟩ := List.range'_eq_append_iff.1 first
  have size := congrArg List.length ids
  rw [List.length_map, List.length_range'] at size
  rw [← size] at ids
  -- The first number of the subtree is that of its root.
  have head := congrArg List.head? ids
  rw [Placed.subtree, List.map_cons, List.length_cons, List.range'_succ] at head
  rw [ids, Option.some.inj head]

end Numbered

end Region

namespace Builder

/-- The elements read so far are numbered from one on, and the next number is the one after theirs.
-/
structure Counts (builder : Builder) : Prop where
  ids_eq : builder.openings.map (·.id) = List.range' 1 builder.openings.length
  next_eq : builder.nextId = builder.openings.length + 1

/-- A region that is appended takes no number. -/
theorem nextId_append (builder : Builder) (region : Region) :
    (builder.append region).nextId = builder.nextId := by
  obtain ⟨opened, finished, nextId⟩ := builder
  cases opened <;> rfl

/-- An element that ends takes no number. -/
theorem nextId_closeInnermost (builder : Builder) (ending : Ending) :
    (builder.closeInnermost ending).nextId = builder.nextId := by
  obtain ⟨opened, finished, nextId⟩ := builder
  cases opened with
  | nil => rfl
  | cons inner outer => exact nextId_append _ _

/-- Elements that end without closing tags take no number. -/
theorem nextId_abandon (builder : Builder) (count : Nat) :
    (builder.abandon count).nextId = builder.nextId := by
  induction count generalizing builder with
  | zero => rfl
  | succ count ih => rw [abandon, ih, nextId_closeInnermost]

/-- A tag takes one number, or none when it is a closing tag. -/
theorem nextId_grow (builder : Builder) (tag : Tag) :
    (builder.grow tag).nextId = builder.nextId + if tag.kind = .closing then 0 else 1 := by
  cases kind : tag.kind with
  | closing =>
    rw [grow, kind, if_pos rfl]
    dsimp only
    rw [closeTag]
    split
    next => rfl
    next inside found => rw [nextId_closeInnermost, nextId_abandon, Nat.add_zero]
  | selfClosing =>
    rw [grow, kind, if_neg (by decide)]
    exact nextId_append _ _
  | opening =>
    rw [grow, kind, if_neg (by decide)]

/-- Before the first tag no number is taken. -/
theorem counts_start : start.Counts := by
  constructor <;> simp [start, openings, Region.openings]

/-- Every tag keeps the numbers in order, wherever it stands. -/
theorem Counts.grow {builder : Builder} (counts : builder.Counts) (tag : Tag) :
    (builder.grow tag).Counts := by
  obtain ⟨ids, next⟩ := counts
  by_cases closes : tag.kind = .closing
  · have openings : (builder.grow tag).openings = builder.openings := by
      rw [openings_grow, if_pos closes, List.append_nil]
    refine ⟨by rw [openings, ids], ?_⟩
    rw [nextId_grow, if_pos closes, openings, next]
  · have openings : (builder.grow tag).openings = builder.openings ++ [builder.openingOf tag] := by
      rw [openings_grow, if_neg closes]
    constructor
    · have number : (builder.openingOf tag).id = 1 + builder.openings.length := by
        rw [Nat.add_comm]
        exact next
      rw [openings, List.map_append, ids, List.length_append, List.length_singleton,
        List.range'_1_concat, ← number]
      rfl
    · rw [nextId_grow, if_neg closes, openings, next, List.length_append, List.length_singleton]

/-- Elements that end without closing tags keep the numbers in order. -/
theorem Counts.abandon {builder : Builder} (counts : builder.Counts) (count : Nat) :
    (builder.abandon count).Counts :=
  ⟨by rw [openings_abandon, counts.ids_eq],
    by rw [openings_abandon, nextId_abandon, counts.next_eq]⟩

/-- What is read around an open element is numbered up to the element. -/
theorem Counts.around {element : OpenElement} {outer : List OpenElement} {finished : List Region}
    {next : Nat} (counts : Counts ⟨element :: outer, finished, next⟩) :
    Counts ⟨outer, finished, element.opening.id⟩ := by
  have openings : openings ⟨element :: outer, finished, next⟩ =
      openings ⟨outer, finished, element.opening.id⟩ ++
        element.opening :: Region.openings element.finished.reverse := by
    simp [Builder.openings]
  have ids := counts.ids_eq
  rw [openings, List.map_append, eq_comm] at ids
  obtain ⟨count, -, before, behind⟩ := List.range'_eq_append_iff.1 ids
  have size := congrArg List.length before
  rw [List.length_map, List.length_range'] at size
  rw [← size] at before behind
  refine ⟨before, ?_⟩
  -- The element takes the number after those around it.
  have head := congrArg List.head? behind
  rw [List.length_append, List.length_cons, Nat.add_sub_cancel_left, List.range'_succ] at head
  have number := Option.some.inj head
  dsimp only at number ⊢
  omega

/-- All tags together keep the numbers in order. -/
theorem Counts.foldl_grow {builder : Builder} (counts : builder.Counts) (tags : List Tag) :
    (tags.foldl Builder.grow builder).Counts := by
  induction tags generalizing builder with
  | nil => exact counts
  | cons tag more ih => exact ih (counts.grow tag)

/-- The nodes of a document that ends with its numbers in order are numbered. -/
theorem Counts.numbered {builder : Builder} (counts : builder.Counts) (length : Nat) :
    (builder.finish length).Numbered := by
  have ids : (builder.finish length).placed.map (·.region.id) =
      List.range' 0 (builder.openings.length + 1) := by
    have below := congrArg (List.map Opening.id)
      (Region.map_opening_flatMap (builder.finish length).children)
    rw [openings_children_finish, counts.ids_eq, ← Region.map_region_forest (some 0) 1,
      List.map_map, List.map_map] at below
    exact congrArg (0 :: ·) below
  have size := congrArg List.length ids
  rw [List.length_map, List.length_range'] at size
  rw [Region.Numbered, ids, size, List.range_eq_range']

end Builder

/-- The nodes of every tree that is read from a text are numbered in document order. -/
theorem Region.numbered_of_parse {rawTags : List String} {text : List Char} {document : Region}
    (parsed : parse rawTags text = .ok document) : document.Numbered := by
  obtain ⟨tags, last, stop, after, run, -, rfl⟩ := exists_run parsed
  rw [run.builder_eq]
  exact (Builder.counts_start.foldl_grow tags).numbered _

end SfcIndex.Markup
