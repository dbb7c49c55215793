import Mathlib.Tactic.TFAE
import SfcIndex.Proofs.Markup.Order
import SfcIndex.Proofs.Text.Slice

/-! # Ancestors and spans

A node is above another one in the tree exactly when its content covers the other one's opening tag,
and then it covers the whole element (`Region.parse_ancestryBySpan`). This needs no balanced text:
an element that is never closed, or that is cut short by the end of an outer one, still lies where
the tree says.
-/

namespace SfcIndex.Markup

open Text

namespace Region

/-- For the document or an element closed by its own closing tag, and for any element: the first is
an ancestor of the second, its content covers the opening tag of the second, and its content covers
the whole of the second, or none of the three. -/
def AncestryBySpan (document : Region) : Prop :=
  ∀ outer ∈ document.placed,
    (outer.region.isRoot = true ∨ ∃ tag, outer.region.ending = .closedBy tag) →
    ∃ content, outer.region.contentSpan? = some content ∧
      ∀ inner ∈ document.placed, inner.region.isRoot = false →
        [document.ProperAncestor outer inner,
          content.contains inner.region.tagSpan = true,
          content.contains inner.region.span = true].TFAE

end Region

namespace Region.LaidOut

variable {document : Region} {length limit : Nat} {outer inner : Placed}

/-- The content of a node covers what is below it. -/
theorem contains_span (spot : Spot document.placed outer limit) {content : Span}
    (is : outer.region.contentSpan? = some content)
    (below : inner ∈ forest (some outer.region.id) (outer.depth + 1) outer.region.children) :
    content.contains inner.region.span = true := by
  obtain ⟨rfl, -⟩ := spot.content content is
  have bounds := spot.laid.bounds below
  exact Span.contains_iff.2 ⟨bounds.start_le, bounds.stop_le⟩

/-- The content of a node covers the opening tags of no other nodes than those below it. -/
theorem mem_forest_of_contains (laidOut : document.LaidOut length)
    (spot : Spot document.placed outer limit) {content : Span}
    (is : outer.region.contentSpan? = some content) (member : inner ∈ document.placed)
    (element : inner.region.isRoot = false)
    (covers : content.contains inner.region.tagSpan = true) :
    inner ∈ forest (some outer.region.id) (outer.depth + 1) outer.region.children := by
  obtain ⟨rfl, within⟩ := spot.content content is
  obtain ⟨next, bounds⟩ := laidOut.bounds member element
  have nonempty := bounds.nonempty
  obtain ⟨after, before⟩ := Span.contains_iff.1 covers
  dsimp only at after before
  have forward : outer.region.tagSpan.start ≤ outer.region.tagSpan.stop :=
    laidOut.tag_start_le_stop (by rw [spot.nodes_eq]; simp)
  rw [spot.nodes_eq] at member
  rcases List.mem_append.1 member with earlier | others
  · have := spot.before_stop inner earlier
    omega
  · rcases List.mem_cons.1 others with rfl | below
    · omega
    · rcases List.mem_append.1 below with inside | later
      · exact inside
      · have := spot.after_start inner later
        omega

/-- In a laid-out document ancestors are the nodes whose content covers an element. -/
theorem ancestryBySpan (laidOut : document.LaidOut length) : document.AncestryBySpan := by
  intro outer known closed
  obtain ⟨content, is⟩ := laidOut.exists_content known closed
  refine ⟨content, is, ?_⟩
  intro inner member element
  obtain ⟨limit, ⟨spot⟩⟩ := laidOut.spot known
  obtain ⟨next, bounds⟩ := laidOut.bounds member element
  tfae_have 1 → 3 := by
    intro ancestor
    exact contains_span spot is ((laidOut.numbered.properAncestor_iff known).1 ancestor)
  tfae_have 3 → 2 := by
    intro covers
    obtain ⟨after, before⟩ := Span.contains_iff.1 covers
    exact Span.contains_iff.2 ⟨after, Nat.le_trans bounds.tag_le_span before⟩
  tfae_have 2 → 1 := by
    intro covers
    exact (laidOut.numbered.properAncestor_iff known).2
      (laidOut.mem_forest_of_contains spot is member element covers)
  tfae_finish

end Region.LaidOut

/-- In the tree of every text that ends below the limit of offsets, ancestors are the nodes whose
content covers an element. -/
theorem Region.parse_ancestryBySpan (rawTags : List String) {text : List Char}
    (fits : width text ≤ Offset.limit) :
    ∃ document, parse rawTags text = .ok document ∧ document.AncestryBySpan :=
  ⟨_, parse_eq_ok rawTags fits, (tree_laid rawTags text).ancestryBySpan⟩

/-- So it is when `b` is cut short by the end of `a`, a closing tag has no element, and `c` is never
closed. -/
theorem Region.parse_ancestryBySpan_unbalanced :
    width "<a><b></a></b><c><d/>".toList ≤ Offset.limit ∧
      ∃ document, parse [] "<a><b></a></b><c><d/>".toList = .ok document ∧
        document.AncestryBySpan :=
  ⟨by decide, parse_ancestryBySpan [] (by decide)⟩

end SfcIndex.Markup
