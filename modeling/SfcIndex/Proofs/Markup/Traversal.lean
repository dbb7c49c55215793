import Mathlib.Data.Set.Card
import SfcIndex.Proofs.Markup.Arena

/-! # Going through a tree by number

From every node of the tree of a text there is a way down, to the node itself and everything below
it, and a way up, from parent to parent. On an arena both follow numbers, the way down with a stack
of nodes still to visit, and nothing in an arena itself keeps them from going on for ever. On the
arena of a text both come to an end: the way down gives consecutive numbers, and the way up as many
as the node has ancestors (`Region.parse_traversed`).
-/

namespace SfcIndex.Markup

open Text

section Iteration

variable {State Item : Type} {next : State → Except ArenaError (Option (Item × State))}
  {test : Item → Except ArenaError Bool} {state : State} {items : List Item}

/-- Asked again and again from a state on, an iterator gives these items and then ends. -/
inductive Yields (next : State → Except ArenaError (Option (Item × State))) :
    State → List Item → Prop
  | done {state : State} (ends : next state = .ok none) : Yields next state []
  | step {state later : State} {item : Item} {rest : List Item}
      (gives : next state = .ok (some (item, later))) (more : Yields next later rest) :
      Yields next state (item :: rest)

/-- Asked again and again from a state on, until an item passes a test or there are no more. -/
inductive Finds (next : State → Except ArenaError (Option (Item × State)))
    (test : Item → Except ArenaError Bool) : State → Option Item → Prop
  | missed {state : State} (ends : next state = .ok none) : Finds next test state none
  | found {state later : State} {item : Item} (gives : next state = .ok (some (item, later)))
      (passes : test item = .ok true) : Finds next test state (some item)
  | further {state later : State} {item : Item} {result : Option Item}
      (gives : next state = .ok (some (item, later))) (fails : test item = .ok false)
      (more : Finds next test later result) : Finds next test state result

/-- An iterator gives one list of items at most. -/
theorem Yields.unique (yields : Yields next state items) {others : List Item}
    (yields' : Yields next state others) : items = others := by
  induction yields generalizing others with
  | done ends =>
    cases yields' with
    | done => rfl
    | step gives => cases ends.symm.trans gives
  | step gives _ ih =>
    cases yields' with
    | done ends => cases ends.symm.trans gives
    | step gives' more =>
      cases gives.symm.trans gives'
      rw [ih more]

/-- A search has one result at most. -/
theorem Finds.unique {result other : Option Item} (finds : Finds next test state result)
    (finds' : Finds next test state other) : result = other := by
  induction finds with
  | missed ends =>
    cases finds' with
    | missed => rfl
    | found gives => cases ends.symm.trans gives
    | further gives => cases ends.symm.trans gives
  | found gives passes =>
    cases finds' with
    | missed ends => cases ends.symm.trans gives
    | found gives' => cases gives.symm.trans gives'; rfl
    | further gives' fails =>
      cases gives.symm.trans gives'
      cases passes.symm.trans fails
  | further gives fails _ ih =>
    cases finds' with
    | missed ends => cases ends.symm.trans gives
    | found gives' passes =>
      cases gives.symm.trans gives'
      cases passes.symm.trans fails
    | further gives' _ more =>
      cases gives.symm.trans gives'
      exact ih more

/-- A search through an iterator that ends finds the first of its items that passes. -/
theorem Yields.finds {Object : Type} {number : Object → Item} {objects : List Object}
    (yields : Yields next state (objects.map number)) {passes : Object → Bool}
    (tests : ∀ object ∈ objects, test (number object) = .ok (passes object)) :
    Finds next test state ((objects.find? passes).map number) := by
  induction objects generalizing state with
  | nil =>
    cases yields with
    | done ends => exact .missed ends
  | cons object rest ih =>
    have tested := tests object List.mem_cons_self
    cases yields with
    | step gives more =>
      by_cases first : passes object = true
      · rw [List.find?_cons_of_pos first]
        exact .found gives (tested.trans (congrArg _ first))
      · rw [List.find?_cons_of_neg first]
        refine .further gives (tested.trans (congrArg _ (Bool.eq_false_iff.2 first))) (ih more ?_)
        exact fun other member => tests other (List.mem_cons_of_mem _ member)

end Iteration

namespace Arena

/-- One step on the way down, with the nodes still to visit on a stack that has its top at the end:
the top is given, and its children take its place, the last of them first. -/
def nextBelow (arena : Arena) (stack : List Nat) : Except ArenaError (Option (Nat × List Nat)) :=
  match stack.getLast? with
  | none => .ok none
  | some id => do
    let node ← arena.get id
    return some (id, stack.dropLast ++ node.children.reverse)

/-- One step on the way up. -/
def nextAbove (arena : Arena) : Option Nat → Except ArenaError (Option (Nat × Option Nat))
  | none => .ok none
  | some id => do
    let node ← arena.get id
    return some (id, node.parent?)

/-- Whether a node has a tag name, ignoring ASCII case. -/
def isTag (arena : Arena) (name : String) (id : Nat) : Except ArenaError Bool := do
  let node ← arena.get id
  return sameName node.opening.name name

/-- The way down from a node, which is the first on it, comes to an end and leads through these
nodes. -/
def Descends (arena : Arena) (id : Nat) (ids : List Nat) : Prop := Yields arena.nextBelow [id] ids

/-- The way up from the parent of a node comes to an end after that many nodes. -/
def HasDepth (arena : Arena) (id depth : Nat) : Prop :=
  ∃ node above, arena.get id = .ok node ∧ Yields arena.nextAbove node.parent? above ∧
    above.length = depth

/-- The search for a tag name on the way down from a node ends with this node, or with none. -/
def FindsTag (arena : Arena) (id : Nat) (name : String) (result : Option Nat) : Prop :=
  Finds arena.nextBelow (arena.isTag name) [id] result

/-- The node on top of the stack is given, and its children take its place. -/
theorem nextBelow_concat {arena : Arena} {id : Nat} {node : ArenaNode}
    (found : arena.get id = .ok node) (stack : List Nat) :
    arena.nextBelow (stack ++ [id]) = .ok (some (id, stack ++ node.children.reverse)) := by
  rw [nextBelow, List.getLast?_concat]
  dsimp only
  rw [found, List.dropLast_concat]
  rfl

end Arena

namespace Region

/-- The way down through regions, put on the stack last first, leads through them and everything
below them before it goes on with what was on the stack. -/
theorem yields_nextBelow {arena : Arena} {regions : List Region}
    (known : ∀ region ∈ regions.flatMap descendants, ∃ node,
      arena.get region.id = .ok node ∧ node.children = region.children.map Region.id)
    {stack rest : List Nat} (later : Yields arena.nextBelow stack rest) :
    Yields arena.nextBelow (stack ++ (regions.map Region.id).reverse)
      ((regions.flatMap descendants).map Region.id ++ rest) := by
  fun_induction openings regions generalizing stack rest with
  | case1 => simpa using later
  | case2 opening ending children more inner outer =>
    rw [List.flatMap_cons, descendants_node] at known ⊢
    obtain ⟨first, found, listed⟩ := known _ List.mem_cons_self
    -- The children lie on top of the regions behind, so what is below the first comes earlier.
    have behind := outer (fun region member => known region (List.mem_append_right _ member)) later
    have below := inner (fun region member =>
      known region (List.mem_append_left _ (List.mem_cons_of_mem _ member))) behind
    have gives := Arena.nextBelow_concat found (stack ++ (more.map Region.id).reverse)
    rw [listed] at gives
    have onTop : stack ++ ((node opening ending children :: more).map Region.id).reverse =
        stack ++ (more.map Region.id).reverse ++ [(node opening ending children).id] := by
      rw [List.map_cons, List.reverse_cons, List.append_assoc]
    rw [onTop, List.cons_append, List.map_cons, List.map_append, List.cons_append,
      List.append_assoc (List.map _ _)]
    exact .step gives below

/-- A node and all nodes that it is an ancestor of. -/
def lineage (document : Region) (place : Placed) : Set Placed :=
  {other | other = place ∨ document.ProperAncestor place other}

/-- The numbers of the nodes with a tag name in the interval that starts at a node and is as long as
its lineage. -/
def tagged (document : Region) (place : Placed) (name : String) : Set Nat :=
  {id | id ∈ Set.Ico place.region.id (place.region.id + (document.lineage place).ncard) ∧
    ∃ other ∈ document.placed, other.region.id = id ∧ other.region.isTag name = true}

/-- What the ways through a document lead to from one of its nodes, and that the ways through its
arena lead there too. -/
structure Traversed (document : Region) (place : Placed) : Prop where
  /-- The numbers of a node and of what is below it follow one another. -/
  descendants_eq : place.region.descendants.map Region.id =
    List.range' place.region.id (document.lineage place).ncard
  descends_iff : ∀ ids, document.arena.Descends place.region.id ids ↔
    ids = place.region.descendants.map Region.id
  /-- The depth of a node is the number of its ancestors. -/
  depth_eq : place.depth = {above | document.ProperAncestor above place}.ncard
  hasDepth_iff : ∀ depth, document.arena.HasDepth place.region.id depth ↔ depth = place.depth
  /-- The first node with a tag name has the smallest number, and one is found when there is one. -/
  first_least : ∀ name found, place.region.firstByName? name = some found →
    IsLeast (document.tagged place name) found.id
  first_none : ∀ name, place.region.firstByName? name = none ↔ document.tagged place name = ∅
  findsTag_iff : ∀ name result, document.arena.FindsTag place.region.id name result ↔
    result = (place.region.firstByName? name).map Region.id

end Region

namespace Region

/-- A set that holds just the items of a list has as many of them. -/
theorem ncard_eq_length {Item : Type} {items : List Item} (nodup : items.Nodup) {set : Set Item}
    (same : ∀ item, item ∈ set ↔ item ∈ items) : set.ncard = items.length := by
  classical
  have finite : set = ↑items.toFinset := by
    ext item
    rw [List.coe_toFinset]
    exact same item
  rw [finite, Set.ncard_coe_finset, List.toFinset_card_of_nodup nodup]

namespace Numbered

variable {document : Region} {place : Placed}

/-- Every node is in the arena under its number. -/
theorem get_arena (numbered : document.Numbered) (member : place ∈ document.placed) :
    document.arena.get place.region.id = .ok place.node := by
  obtain ⟨index, inside, rfl⟩ := List.getElem_of_mem member
  have number : document.placed[index].region.id = index := by
    have ids := congrArg (·[index]?) numbered
    simpa [inside] using ids
  have found : (document.placed.map Placed.node)[index]? = some document.placed[index].node := by
    simp [inside]
  rw [Arena.get, number, arena, found]

/-- No node stands twice in a document. -/
theorem placed_nodup (numbered : document.Numbered) : document.placed.Nodup :=
  .of_map _ numbered.ids_nodup

/-- The lineage of a node is its subtree. -/
theorem mem_lineage_iff (numbered : document.Numbered) (member : place ∈ document.placed)
    (other : Placed) : other ∈ document.lineage place ↔ other ∈ place.subtree := by
  rw [Placed.subtree, List.mem_cons, ← numbered.properAncestor_iff member]
  rfl

/-- The lineage of a node is as large as its subtree. -/
theorem ncard_lineage (numbered : document.Numbered) (member : place ∈ document.placed) :
    (document.lineage place).ncard = place.subtree.length :=
  ncard_eq_length (numbered.placed_nodup.sublist (subtree_stands_placed member).sublist)
    (numbered.mem_lineage_iff member)

/-- The numbers of a node and of what is below it follow one another. -/
theorem ids_descendants (numbered : document.Numbered) (member : place ∈ document.placed) :
    place.region.descendants.map Region.id =
      List.range' place.region.id (document.lineage place).ncard := by
  rw [numbered.ncard_lineage member, ← numbered.ids_subtree member, ← map_region_subtree,
    List.map_map]
  rfl

/-- What is below a node of a document is in the document. -/
theorem exists_of_mem_descendants (member : place ∈ document.placed) {region : Region}
    (below : region ∈ place.region.descendants) :
    ∃ other ∈ document.placed, other.region = region := by
  rw [← map_region_subtree] at below
  obtain ⟨other, inside, same⟩ := List.mem_map.1 below
  exact ⟨other, (subtree_stands_placed member).mem inside, same⟩

/-- The way down from a node leads through its descendants. -/
theorem descends (numbered : document.Numbered) (member : place ∈ document.placed) :
    document.arena.Descends place.region.id (place.region.descendants.map Region.id) := by
  have known : ∀ region ∈ [place.region].flatMap descendants, ∃ node,
      document.arena.get region.id = .ok node ∧
        node.children = region.children.map Region.id := by
    intro region below
    rw [List.flatMap_singleton] at below
    obtain ⟨other, inside, rfl⟩ := exists_of_mem_descendants member below
    exact ⟨_, numbered.get_arena inside, rfl⟩
  have walk := yields_nextBelow known (.done rfl : Yields document.arena.nextBelow [] [])
  rwa [List.flatMap_singleton, List.append_nil] at walk

/-- A node of the arena has the tag names of the node of the tree. -/
theorem isTag_arena (numbered : document.Numbered) (member : place ∈ document.placed)
    (name : String) :
    document.arena.isTag name place.region.id = .ok (place.region.isTag name) := by
  rw [Arena.isTag, numbered.get_arena member]
  rfl

/-- A search for a tag name finds the first descendant that has it. -/
theorem findsTag (numbered : document.Numbered) (member : place ∈ document.placed)
    (name : String) :
    document.arena.FindsTag place.region.id name
      ((place.region.firstByName? name).map Region.id) := by
  apply (numbered.descends member).finds
  intro region below
  obtain ⟨other, known, rfl⟩ := exists_of_mem_descendants member below
  exact numbered.isTag_arena known name

/-- The numbers with a tag name in the interval of a node are those of the nodes with that name in
its subtree. -/
theorem mem_tagged_iff (numbered : document.Numbered) (member : place ∈ document.placed)
    {name : String} {id : Nat} :
    id ∈ document.tagged place name ↔
      ∃ region ∈ place.region.descendants, region.id = id ∧ region.isTag name = true := by
  have listed : id ∈ Set.Ico place.region.id
      (place.region.id + (document.lineage place).ncard) ↔
      ∃ other ∈ place.subtree, other.region.id = id := by
    rw [Set.mem_Ico, ← List.mem_range'_1, numbered.ncard_lineage member,
      ← numbered.ids_subtree member, List.mem_map]
  rw [tagged, ← map_region_subtree]
  constructor
  · rintro ⟨within, other, known, same, named⟩
    obtain ⟨below, inside, same'⟩ := listed.1 within
    have known' := (subtree_stands_placed member).mem inside
    rw [numbered.eq_of_id_eq known known' (same.trans same'.symm)] at named
    exact ⟨below.region, List.mem_map_of_mem inside, same', named⟩
  · rintro ⟨region, below, same, named⟩
    obtain ⟨other, inside, rfl⟩ := List.mem_map.1 below
    exact ⟨listed.2 ⟨other, inside, same⟩, other, (subtree_stands_placed member).mem inside, same,
      named⟩

/-- The first descendant with a tag name has the smallest number. -/
theorem first_least (numbered : document.Numbered) (member : place ∈ document.placed)
    {name : String} {found : Region} (first : place.region.firstByName? name = some found) :
    IsLeast (document.tagged place name) found.id := by
  obtain ⟨named, before, after, split, others⟩ := List.find?_eq_some_iff_append.1 first
  have ordered : place.region.descendants.Pairwise fun first second => first.id < second.id := by
    apply List.pairwise_map.1
    rw [numbered.ids_descendants member]
    exact List.pairwise_lt_range' _
  rw [split] at ordered
  constructor
  · rw [numbered.mem_tagged_iff member, split]
    exact ⟨found, by simp, rfl, named⟩
  · intro id tagged
    obtain ⟨region, below, rfl, named'⟩ := (numbered.mem_tagged_iff member).1 tagged
    rw [split] at below
    rcases List.mem_append.1 below with earlier | rest
    · have other := others region earlier
      rw [named'] at other
      cases other
    · rcases List.mem_cons.1 rest with rfl | later
      · exact Nat.le_refl _
      · exact Nat.le_of_lt ((List.pairwise_cons.1 (List.pairwise_append.1 ordered).2.1).1 _ later)

/-- None is found when there is none. -/
theorem first_none (numbered : document.Numbered) (member : place ∈ document.placed)
    (name : String) :
    place.region.firstByName? name = none ↔ document.tagged place name = ∅ := by
  rw [firstByName?, List.find?_eq_none, Set.eq_empty_iff_forall_notMem]
  constructor
  · intro none id tagged
    obtain ⟨region, below, -, named⟩ := (numbered.mem_tagged_iff member).1 tagged
    exact none region below named
  · intro empty region below named
    exact empty region.id ((numbered.mem_tagged_iff member).2 ⟨region, below, rfl, named⟩)

/-- The ancestors of a child are its parent and those of the parent. -/
theorem properAncestor_child_iff (numbered : document.Numbered) {parent child other : Placed}
    (above : parent ∈ document.placed) (below : child ∈ document.placed)
    (link : child.parent? = some parent.region.id) :
    document.ProperAncestor other child ↔
      other = parent ∨ document.ProperAncestor other parent := by
  constructor
  · intro ancestor
    obtain ⟨last, path, step⟩ := Relation.TransGen.tail'_iff.1 ancestor
    have same : last = parent := by
      apply numbered.eq_of_id_eq step.above above
      exact Option.some.inj (step.link.symm.trans link)
    rw [same] at path
    exact (Relation.reflTransGen_iff_eq_or_transGen.1 path).imp_left Eq.symm
  · have step : document.ParentOf parent child := ⟨above, below, link⟩
    rintro (rfl | ancestor)
    · exact .single step
    · exact .tail ancestor step

/-- The way up from the parent of a node leads through the ancestors of the node, one for each step
that it is away from the document. -/
theorem exists_ancestors (numbered : document.Numbered) (member : place ∈ document.placed) :
    ∃ above : List Placed, above.Nodup ∧
      (∀ other, document.ProperAncestor other place ↔ other ∈ above) ∧
      Yields document.arena.nextAbove place.parent? (above.map (·.region.id)) ∧
      above.length = place.depth := by
  -- A parent has a smaller number than its child, so the induction is on the number.
  induction number : place.region.id using Nat.strongRecOn generalizing place with
  | ind id ih =>
    subst number
    cases parentage : place.parent? with
    | none =>
      refine ⟨[], .nil, ?_, .done rfl, ?_⟩
      · intro other
        refine iff_of_false ?_ List.not_mem_nil
        intro ancestor
        obtain ⟨last, -, step⟩ := Relation.TransGen.tail'_iff.1 ancestor
        cases parentage.symm.trans step.link
      · rw [eq_document_of_parentless member parentage]
        rfl
    | some id =>
      obtain ⟨parent, known, rfl⟩ := exists_parent member parentage
      have earlier := numbered.parent_lt member parentage
      obtain ⟨above, nodup, ancestors, climbs, size⟩ := ih _ earlier known rfl
      refine ⟨parent :: above, ?_, ?_, ?_, ?_⟩
      · refine List.nodup_cons.2 ⟨?_, nodup⟩
        intro cyclic
        exact Nat.lt_irrefl _ (numbered.id_lt_of_properAncestor ((ancestors parent).2 cyclic))
      · intro other
        rw [numbered.properAncestor_child_iff known member parentage, List.mem_cons, ancestors]
      · refine .step ?_ climbs
        rw [Arena.nextAbove, numbered.get_arena known]
        rfl
      · rw [List.length_cons, size, (numbered.child_of_link known member parentage).1]

/-- The way up from a node is as long as the node is deep. -/
theorem hasDepth (numbered : document.Numbered) (member : place ∈ document.placed) :
    document.arena.HasDepth place.region.id place.depth := by
  obtain ⟨above, -, -, climbs, size⟩ := numbered.exists_ancestors member
  exact ⟨place.node, _, numbered.get_arena member, climbs, by rw [List.length_map, size]⟩

end Numbered

end Region

/-- A node has one depth at most. -/
theorem Arena.HasDepth.unique {arena : Arena} {id first second : Nat}
    (hasDepth : arena.HasDepth id first) (hasDepth' : arena.HasDepth id second) :
    first = second := by
  obtain ⟨node, above, found, yields, rfl⟩ := hasDepth
  obtain ⟨node', above', found', yields', rfl⟩ := hasDepth'
  cases found.symm.trans found'
  rw [yields.unique yields']

namespace Region

/-- Every node of a numbered document is traversed. -/
theorem Numbered.traversed {document : Region} (numbered : document.Numbered) {place : Placed}
    (member : place ∈ document.placed) : document.Traversed place where
  descendants_eq := numbered.ids_descendants member
  descends_iff := fun ids =>
    ⟨fun walk => walk.unique (numbered.descends member),
      fun same => same ▸ numbered.descends member⟩
  depth_eq := by
    obtain ⟨above, nodup, ancestors, -, size⟩ := numbered.exists_ancestors member
    have count : {above | document.ProperAncestor above place}.ncard = above.length :=
      ncard_eq_length nodup ancestors
    rw [count, size]
  hasDepth_iff := fun depth =>
    ⟨fun known => known.unique (numbered.hasDepth member),
      fun same => same ▸ numbered.hasDepth member⟩
  first_least := fun _ _ first => numbered.first_least member first
  first_none := numbered.first_none member
  findsTag_iff := fun name result =>
    ⟨fun finds => finds.unique (numbered.findsTag member name),
      fun same => same ▸ numbered.findsTag member name⟩

/-- For every text, of any length, that is read as a tree: the tags that the scanner gives on the
way to its end, put together by number, give the nodes of the tree. From the document the way down
leads through all of them in their order; from each of them it leads through an interval of numbers,
the way up leads to the document, and a search for a tag name to the first node that has it. Every
text that ends below the limit of offsets can be read. -/
theorem parse_traversed (rawTags : List String) (text : List Char) :
    (∀ document, parse rawTags text = .ok document →
      (∃ tags last stop after, Run rawTags text tags last stop ∧
        stop.nextTag = .ok (none, after) ∧
        Arena.ofTags (Offset.cut (width text)) tags = .ok document.arena) ∧
      document.descendants.map Region.id = List.range document.arena.nodes.length ∧
      ∀ id < document.arena.nodes.length,
        ∃ place, document.find? id = some place ∧ place.region.id = id ∧
          document.Traversed place) ∧
      (width text ≤ Offset.limit → ∃ document, parse rawTags text = .ok document) := by
  constructor
  · intro document parsed
    have numbered := numbered_of_parse parsed
    have size : document.arena.nodes.length = document.placed.length := List.length_map _
    refine ⟨?_, ?_, ?_⟩
    · obtain ⟨tags, last, stop, after, run, none, rfl⟩ := exists_run parsed
      refine ⟨tags, last, stop, after, run, none, ?_⟩
      rw [Arena.ofTags_eq, ← run.builder_eq]
    · rw [size, ← numbered, descendants, List.map_map]
      rfl
    · intro id below
      rw [size] at below
      obtain ⟨place, member, found, same⟩ := numbered.find?_eq below
      exact ⟨place, found, same, numbered.traversed member⟩
  · intro fits
    exact ⟨_, parse_eq_ok rawTags fits⟩

end Region

end SfcIndex.Markup
