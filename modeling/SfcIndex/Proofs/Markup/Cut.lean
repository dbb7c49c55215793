import SfcIndex.Proofs.Markup.Locality
import SfcIndex.Proofs.Markup.Move
import SfcIndex.Proofs.Markup.Order
import SfcIndex.Proofs.Markup.Run

/-! # Trees of texts that are cut where nothing is open

At a clean cut a tag ends that leaves no element open (`Region.CleanCut`). The top-level regions of
the whole text are then those of the text in front of the cut, all of them closed, and those of the
text behind it, moved.
-/

namespace SfcIndex.Markup

open Text

namespace Builder

theorem children_finish (builder : Builder) (length : Nat) :
    (builder.finish length).children =
      (builder.abandon builder.opened.length).finished.reverse := rfl

/-- The regions in front stay and those behind are moved. -/
theorem children_finish_behind (builder : Builder) (bytes ids : Nat) (earlier : List Region)
    (length length' : Nat) :
    ((builder.behind bytes ids earlier).finish length).children =
      earlier.reverse ++ (builder.finish length').children.map (·.move bytes ids) := by
  have count : (builder.behind bytes ids earlier).opened.length = builder.opened.length :=
    List.length_map _
  rw [children_finish, children_finish, count, abandon_behind, behind, List.reverse_append,
    List.map_reverse]

/-- An opening tag leaves its own element open. -/
theorem opened_grow_opening (builder : Builder) {tag : Tag} (opens : tag.kind = .opening) :
    (builder.grow tag).opened ≠ [] := by
  rw [grow, opens]
  exact List.cons_ne_nil _ _

end Builder

/-- Regions that can be continued are closed: an unclosed one would have to be the last. -/
theorem Settled.ending_ne_unclosed {start id stop next : Nat} {regions : List Region}
    (settled : Settled start id regions stop next) {region : Region} (member : region ∈ regions) :
    region.ending ≠ .unclosed := by
  intro unclosed
  let opening : Opening := ⟨next, "", [], ⟨stop, stop + 1⟩⟩
  have later : Laid stop next [.node opening .selfClosing []] (stop + 1) (next + 1) :=
    .selfClosing rfl (Nat.le_refl _) (Nat.lt_succ_self _) (.nil (Nat.le_refl _))
  have whole := settled _ _ _ later
  have last := whole.getLast?_unclosed (List.mem_append_left _ member) unclosed
  rw [List.getLast?_concat] at last
  cases last
  cases unclosed

namespace Region

/-- While the two texts together are read, a tag ends exactly where the first of them does, and
after that tag no element is open. -/
def CleanCut (rawTags : List String) (front rest : List Char) : Prop :=
  ∃ earlier tag builder scanner,
    Run rawTags (front ++ rest) (earlier ++ [tag]) builder scanner ∧
      tag.span.stop = width front ∧ builder.opened = []

/-- The tags of the two texts together have one that ends exactly where the first of them does, and
that leaves no element open. -/
def TagsCut (rawTags : List String) (front rest : List Char) : Prop :=
  ∃ earlier tag later,
    tags rawTags (.atStart (front ++ rest)) = earlier ++ tag :: later ∧
      tag.span.stop = width front ∧
      ((earlier ++ [tag]).foldl Builder.grow .start).opened = []

/-- Below the limit a clean cut is one of the tags of the text. -/
theorem CleanCut.tagsCut {rawTags : List String} {front rest : List Char}
    (cut : CleanCut rawTags front rest) (fits : width (front ++ rest) ≤ Offset.limit) :
    TagsCut rawTags front rest := by
  obtain ⟨earlier, tag, builder, scanner, run, ends, none⟩ := cut
  obtain ⟨cursor, rfl, pass⟩ := run.exists_pass fits
  refine ⟨earlier, tag, tags rawTags cursor, ?_, ends, ?_⟩
  · rw [pass.tags_eq, List.append_assoc, List.singleton_append]
  · rwa [← pass.builder_eq]

/-- Below the limit a cut of the tags of a text is a clean one. -/
theorem TagsCut.cleanCut {rawTags : List String} {front rest : List Char}
    (cut : TagsCut rawTags front rest) (fits : width (front ++ rest) ≤ Offset.limit) :
    CleanCut rawTags front rest := by
  obtain ⟨earlier, tag, later, read, ends, none⟩ := cut
  rw [List.append_cons] at read
  obtain ⟨cursor, pass, -⟩ := exists_pass_of_tags fits read
  exact ⟨earlier, tag, _, _, pass.run fits, ends, none⟩

namespace TagsCut

variable {rawTags : List String} {front rest : List Char}

/-- At a clean cut the tags in front and behind are those of the two texts, and those in front leave
nothing open. -/
theorem tags_eq (cut : TagsCut rawTags front rest) :
    tags rawTags (.atStart (front ++ rest)) =
        tags rawTags (.atStart front) ++
          (tags rawTags (.atStart rest)).map (·.move (width front)) ∧
      ((tags rawTags (.atStart front)).foldl Builder.grow .start).opened = [] := by
  obtain ⟨earlier, tag, later, read, ends, none⟩ := cut
  have inFront : tags rawTags ⟨0, front ++ rest⟩ = earlier ++ tag :: later := read
  obtain ⟨front_eq, later_eq⟩ := tags_cut inFront (by omega)
  rw [Nat.zero_add] at later_eq
  have closes : tag.kind ≠ .opening := by
    intro opens
    rw [List.foldl_append] at none
    exact Builder.opened_grow_opening _ opens none
  have resumes : resume rawTags tag ⟨width front, rest⟩ =
      (Cursor.atStart rest).move (width front) := by
    rw [resume, decide_eq_false closes, Cursor.move, Cursor.atStart, Nat.zero_add]
    rfl
  rw [resumes, tags_move] at later_eq
  have front_eq' : tags rawTags (.atStart front) = earlier ++ [tag] := front_eq
  refine ⟨?_, by rwa [front_eq']⟩
  rw [read, front_eq', later_eq, List.append_assoc]
  rfl

/-- The top-level regions in front of a clean cut are those of the text there, and all are closed.
-/
theorem nests_front (cut : TagsCut rawTags front rest) :
    ∃ finished ids, (tags rawTags (.atStart front)).foldl Builder.grow .start =
        ⟨[], finished, 1 + ids⟩ ∧
      (tree rawTags front).children = finished.reverse ∧
      ∀ region ∈ finished.reverse, region.ending ≠ .unclosed := by
  obtain ⟨-, none⟩ := cut.tags_eq
  have nests := Builder.nests_start.foldl_grow (inOrder_tags rawTags (.atStart front))
  unfold tree
  generalize (tags rawTags (.atStart front)).foldl Builder.grow .start = grown at none nests ⊢
  obtain ⟨opened, finished, nextId⟩ := grown
  cases none
  have settled : Settled 0 1 finished.reverse _ nextId := nests
  obtain ⟨ids, rfl⟩ := Nat.exists_eq_add_of_le settled.laid.id_le_next
  exact ⟨finished, ids, rfl, rfl, fun region member => settled.ending_ne_unclosed member⟩

/-- In front of a clean cut everything at the top level is closed. -/
theorem ending_ne_unclosed (cut : TagsCut rawTags front rest) {region : Region}
    (member : region ∈ (tree rawTags front).children) : region.ending ≠ .unclosed := by
  obtain ⟨finished, ids, -, children, closed⟩ := cut.nests_front
  exact closed region (children ▸ member)

/-- The top-level regions of a text with a clean cut are those of its two parts. -/
theorem children_tree (cut : TagsCut rawTags front rest) :
    ∃ ids, (tree rawTags (front ++ rest)).children =
      (tree rawTags front).children ++
        (tree rawTags rest).children.map (·.move (width front) ids) := by
  obtain ⟨read, -⟩ := cut.tags_eq
  obtain ⟨finished, ids, grown, children, -⟩ := cut.nests_front
  refine ⟨ids, ?_⟩
  have start : (⟨[], finished, 1 + ids⟩ : Builder) =
      Builder.start.behind (width front) ids finished := rfl
  rw [children]
  unfold tree
  rw [read, List.foldl_append, grown, start, Builder.foldl_grow_behind]
  exact Builder.children_finish_behind _ _ _ _ _ _

end TagsCut

end Region

end SfcIndex.Markup
