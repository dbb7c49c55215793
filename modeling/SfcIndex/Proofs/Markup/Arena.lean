import SfcIndex.Proofs.Markup.Entries
import SfcIndex.Proofs.Markup.Numbers

/-! # The nodes of a tree by number

An arena holds all nodes of a tree in one list. A node knows its parent and its children by their
numbers, and its own number is its index. Adding tags to an arena, with the numbers of the open
nodes on a stack, gives the nodes of the tree that is grown from the tags, and every number that is
followed on the way is the number of a node (`Arena.ofTags_eq`).
-/

namespace SfcIndex.Markup

open Text

/-- A node that names its parent and its children by their numbers. -/
structure ArenaNode where
  opening : Opening
  ending : Ending
  parent? : Option Nat
  children : List Nat
  deriving Repr, DecidableEq

/-- The nodes of a tree, each at the index that is its number. -/
structure Arena where
  nodes : List ArenaNode
  deriving Repr, DecidableEq

/-- What can go wrong when nodes are found by their numbers. -/
inductive ArenaError where
  /-- No node has the number. -/
  | noNode (id : Nat)
  /-- Not even the document is open. -/
  | noneOpen
  deriving Repr, DecidableEq

namespace Arena

/-- The node with a number. -/
def get (arena : Arena) (id : Nat) : Except ArenaError ArenaNode :=
  match arena.nodes[id]? with
  | some node => .ok node
  | none => .error (.noNode id)

/-- The arena with one node changed. -/
def update (arena : Arena) (id : Nat) (change : ArenaNode → ArenaNode) :
    Except ArenaError Arena := do
  let node ← arena.get id
  return ⟨arena.nodes.set id (change node)⟩

/-- The arena with a new node at its end, which becomes the last child of its parent. -/
def push (arena : Arena) (parent : Nat) (opening : Opening) (ending : Ending) :
    Except ArenaError Arena := do
  let listed ← arena.update parent fun above =>
    { above with children := above.children ++ [opening.id] }
  return ⟨listed.nodes ++ [⟨opening, ending, some parent, []⟩]⟩

/-- The innermost of some open nodes that has a name, and the open nodes around it. The last of them
is the document, which is not asked for its name. -/
def nearest? (arena : Arena) (name : String) :
    List Nat → Except ArenaError (Option (Nat × List Nat))
  | [] => .ok none
  | [_] => .ok none
  | id :: outer :: more => do
    let node ← arena.get id
    if sameName node.opening.name name then return some (id, outer :: more)
    else nearest? arena name (outer :: more)

/-- The node of a document of the given length in bytes. -/
def documentNode (length : Nat) (children : List Nat) : ArenaNode :=
  ⟨⟨0, Region.documentName, [], ⟨0, 0⟩⟩, .closedBy ⟨length, length⟩, none, children⟩

/-- An arena while a text is read, with the numbers of the open nodes, innermost first and the
document last. -/
structure Reading where
  arena : Arena
  opened : List Nat

namespace Reading

def start (length : Nat) : Reading := ⟨⟨[documentNode length []]⟩, [0]⟩

/-- The nodes after an opening or self-closing tag. -/
def openTag (reading : Reading) (tag : Tag) : Except ArenaError Reading :=
  match reading.opened with
  | [] => .error .noneOpen
  | parent :: _ => do
    let opening : Opening :=
      ⟨reading.arena.nodes.length, tag.name,
        Attribute.listed tag.attributeSpan.start tag.attributeText, tag.span⟩
    if tag.kind = .selfClosing then
      let arena ← reading.arena.push parent opening .selfClosing
      return { reading with arena }
    else
      let arena ← reading.arena.push parent opening .unclosed
      return ⟨arena, opening.id :: reading.opened⟩

/-- The nodes after a closing tag, which closes the nearest open node of its name. -/
def closeTag (reading : Reading) (tag : Tag) : Except ArenaError Reading := do
  match ← reading.arena.nearest? tag.name reading.opened with
  | none => return reading
  | some (id, outer) =>
    let arena ← reading.arena.update id fun node => { node with ending := .closedBy tag.span }
    return ⟨arena, outer⟩

/-- The nodes after one more tag. -/
def addTag (reading : Reading) (tag : Tag) : Except ArenaError Reading :=
  if tag.kind = .closing then reading.closeTag tag else reading.openTag tag

end Reading

/-- The nodes that some tags give in a document of the given length in bytes. -/
def ofTags (length : Nat) (tags : List Tag) : Except ArenaError Arena := do
  let reading ← tags.foldlM Reading.addTag (.start length)
  return reading.arena

section

variable {front back : List ArenaNode} {node : ArenaNode} {id : Nat}

/-- A node is found at its number. -/
theorem get_eq (place : front.length = id) : get ⟨front ++ node :: back⟩ id = .ok node := by
  subst place
  rw [get, List.getElem?_append_right (Nat.le_refl _), Nat.sub_self]
  rfl

/-- A node is still found after more were added. -/
theorem get_append {nodes : List ArenaNode} (found : get ⟨nodes⟩ id = .ok node)
    (more : List ArenaNode) : get ⟨nodes ++ more⟩ id = .ok node := by
  rw [get] at found ⊢
  cases known : nodes[id]? with
  | none =>
    rw [known] at found
    cases found
  | some other =>
    rw [known] at found
    cases found
    have inside := (List.getElem?_eq_some_iff.1 known).1
    rw [List.getElem?_append_left inside, known]

/-- A change at a number changes the node there and no other. -/
theorem update_eq (place : front.length = id) (change : ArenaNode → ArenaNode) :
    update ⟨front ++ node :: back⟩ id change = .ok ⟨front ++ change node :: back⟩ := by
  rw [update, get_eq place]
  subst place
  dsimp only [bind, Except.bind, pure, Except.pure]
  rw [List.set_append_right _ _ (Nat.le_refl _), Nat.sub_self, List.set_cons_zero]

/-- A new node goes to the end and into the list of its parent. -/
theorem push_eq (place : front.length = id) (opening : Opening) (ending : Ending) :
    push ⟨front ++ node :: back⟩ id opening ending =
      .ok ⟨front ++ { node with children := node.children ++ [opening.id] } ::
        (back ++ [⟨opening, ending, some id, []⟩])⟩ := by
  rw [push, update_eq place]
  dsimp only [bind, Except.bind, pure, Except.pure]
  rw [List.append_assoc, List.cons_append]

/-- The nearest open node of a name is searched from the innermost one on. -/
theorem nearest?_cons {arena : Arena} (found : arena.get id = .ok node) (name : String)
    (outer : List Nat) :
    arena.nearest? name (id :: (outer ++ [0])) =
      if sameName node.opening.name name then .ok (some (id, outer ++ [0]))
      else arena.nearest? name (outer ++ [0]) := by
  cases outer with
  | nil =>
    rw [List.nil_append, nearest?.eq_3, found]
    rfl
  | cons next more =>
    rw [List.cons_append, nearest?.eq_3, found]
    rfl

end

end Arena

namespace Region

/-- The node of a region that has a place in a tree. -/
def Placed.node (place : Placed) : ArenaNode :=
  ⟨place.region.opening, place.region.ending, place.parent?, place.region.children.map Region.id⟩

/-- The nodes of a document in document order. -/
def arena (document : Region) : Arena := ⟨document.placed.map Placed.node⟩

/-- The nodes of regions and of everything below them, in document order. -/
def nodes (parent? : Option Nat) : List Region → List ArenaNode
  | [] => []
  | .node opening ending children :: more =>
    ⟨opening, ending, parent?, children.map Region.id⟩ ::
      (nodes (some opening.id) children ++ nodes parent? more)

/-- The nodes of regions in a row are those of each, in order. -/
theorem nodes_append (parent? : Option Nat) (first second : List Region) :
    nodes parent? (first ++ second) = nodes parent? first ++ nodes parent? second := by
  induction first with
  | nil => simp [nodes]
  | cons region more ih =>
    obtain ⟨opening, ending, children⟩ := region
    simp [nodes, ih]

/-- The nodes of a forest are those of its regions. -/
theorem map_node_forest (parent? : Option Nat) (depth : Nat) (regions : List Region) :
    (forest parent? depth regions).map Placed.node = nodes parent? regions := by
  fun_induction nodes parent? regions generalizing depth with
  | case1 => rfl
  | case2 parent? opening ending children more inner outer =>
    rw [forest_cons, List.map_cons, List.map_append, inner, outer]
    rfl

/-- There are as many nodes as elements. -/
theorem length_nodes (parent? : Option Nat) (regions : List Region) :
    (nodes parent? regions).length = (openings regions).length := by
  fun_induction nodes parent? regions with
  | case1 =>
    rw [openings]
    rfl
  | case2 parent? opening ending children more inner outer =>
    rw [openings, List.length_cons, List.length_cons, List.length_append, List.length_append, inner,
      outer]

end Region

namespace Builder

/-- The number of the innermost open node, which is the document when no element is open. -/
def innermost : List OpenElement → Nat
  | [] => 0
  | element :: _ => element.opening.id

/-- The nodes of open elements and of the regions that have ended, when the innermost open node has
some further children at its end. -/
def levelNodes (length : Nat) (finished : List Region) : List OpenElement → List Nat →
    List ArenaNode
  | [], last =>
    Arena.documentNode length (finished.reverse.map Region.id ++ last) ::
      Region.nodes (some 0) finished.reverse
  | element :: outer, last =>
    levelNodes length finished outer [element.opening.id] ++
      ⟨element.opening, .unclosed, some (innermost outer),
          element.finished.reverse.map Region.id ++ last⟩ ::
        Region.nodes (some element.opening.id) element.finished.reverse

/-- The nodes of a document of the given length in bytes, as far as it is read. -/
def nodes (builder : Builder) (length : Nat) : List ArenaNode :=
  levelNodes length builder.finished builder.opened []

/-- What is read so far, as an arena with its open nodes. -/
def reading (builder : Builder) (length : Nat) : Arena.Reading :=
  ⟨⟨builder.nodes length⟩, builder.stack.map (·.id) ++ [0]⟩

/-- There is one node more than elements, that of the document. -/
theorem length_levelNodes (length : Nat) (finished : List Region) (opened : List OpenElement)
    (last : List Nat) (next : Nat) :
    (levelNodes length finished opened last).length =
      (openings ⟨opened, finished, next⟩).length + 1 := by
  induction opened generalizing last with
  | nil => simp [levelNodes, openings, Region.length_nodes]
  | cons element outer ih =>
    rw [levelNodes, List.length_append, List.length_cons, ih, Region.length_nodes]
    simp [openings]
    omega

namespace Counts

variable {finished : List Region} {opened : List OpenElement} {next : Nat}

/-- The next number is the number of nodes. -/
theorem length_levelNodes (counts : Counts ⟨opened, finished, next⟩) (length : Nat)
    (last : List Nat) : (levelNodes length finished opened last).length = next := by
  rw [Builder.length_levelNodes length finished opened last next, ← counts.next_eq]

/-- The innermost open node is where its number says. -/
theorem exists_innermost (counts : Counts ⟨opened, finished, next⟩) (length : Nat) :
    ∃ (front back : List ArenaNode) (node : ArenaNode), front.length = innermost opened ∧
      ∀ last, levelNodes length finished opened last =
        front ++ { node with children := node.children ++ last } :: back := by
  cases opened with
  | nil =>
    exact ⟨[], _, Arena.documentNode length (finished.reverse.map Region.id), rfl, fun _ => rfl⟩
  | cons element outer =>
    exact ⟨_, _, ⟨element.opening, .unclosed, some (innermost outer),
      element.finished.reverse.map Region.id⟩, counts.around.length_levelNodes length _,
      fun _ => rfl⟩

/-- A new node is put at the end and listed under the innermost open one. -/
theorem push_levelNodes (counts : Counts ⟨opened, finished, next⟩) (length : Nat)
    (opening : Opening) (ending : Ending) :
    Arena.push ⟨levelNodes length finished opened []⟩ (innermost opened) opening ending =
      .ok ⟨levelNodes length finished opened [opening.id] ++
        [⟨opening, ending, some (innermost opened), []⟩]⟩ := by
  obtain ⟨front, back, node, place, nodes⟩ := counts.exists_innermost length
  rw [nodes, nodes, Arena.push_eq place]
  simp only [List.append_nil, List.append_assoc, List.cons_append]

/-- Every open node is where its number says. -/
theorem get_levelNodes (counts : Counts ⟨opened, finished, next⟩) (length : Nat)
    (last : List Nat) {element : OpenElement} (member : element ∈ opened) :
    ∃ node, Arena.get ⟨levelNodes length finished opened last⟩ element.opening.id = .ok node ∧
      node.opening = element.opening := by
  induction opened generalizing next last with
  | nil => cases member
  | cons inner outer ih =>
    rcases List.mem_cons.1 member with rfl | further
    · exact ⟨_, Arena.get_eq (counts.around.length_levelNodes length _), rfl⟩
    · obtain ⟨node, found, same⟩ := ih counts.around [inner.opening.id] further
      exact ⟨node, Arena.get_append found _, same⟩

end Counts

section Changes

variable (builder : Builder) (length : Nat)

/-- The innermost opened element is the first one of those that are open. -/
theorem opened_reading :
    ∃ outer, (builder.reading length).opened = innermost builder.opened :: outer := by
  obtain ⟨opened, finished, nextId⟩ := builder
  cases opened with
  | nil => exact ⟨[], rfl⟩
  | cons element outer => exact ⟨_, rfl⟩

/-- A region that is appended comes behind all other nodes. -/
theorem nodes_append (region : Region) :
    (builder.append region).nodes length =
      levelNodes length builder.finished builder.opened [region.id] ++
        Region.nodes (some (innermost builder.opened)) [region] := by
  obtain ⟨opened, finished, nextId⟩ := builder
  cases opened with
  | nil => simp [append, nodes, levelNodes, innermost, Region.nodes_append]
  | cons element outer => simp [append, nodes, levelNodes, innermost, Region.nodes_append]

/-- An open element has the node of one that is never closed. -/
theorem nodes_closeInnermost_unclosed :
    (builder.closeInnermost .unclosed).nodes length = builder.nodes length := by
  obtain ⟨opened, finished, nextId⟩ := builder
  cases opened with
  | nil => rfl
  | cons element outer =>
    rw [closeInnermost, nodes_append]
    simp [OpenElement.close, Region.nodes, nodes, levelNodes]

/-- Leaving elements unclosed does not change the nodes. -/
theorem nodes_abandon (count : Nat) :
    (builder.abandon count).nodes length = builder.nodes length := by
  induction count generalizing builder with
  | zero => rfl
  | succ count ih => rw [abandon, ih, nodes_closeInnermost_unclosed]

/-- The nodes at the end of a text are those of the document. -/
theorem arena_finish : (builder.finish length).arena = ⟨builder.nodes length⟩ := by
  have none := builder.opened_abandon_all
  rw [← builder.nodes_abandon length builder.opened.length, nodes, none, levelNodes,
    List.append_nil, Region.arena, finish, Region.placed_node, List.map_cons,
    Region.map_node_forest]
  rfl

end Changes

section Tag

variable {builder : Builder}

/-- Closing the innermost open element changes the ending of its node. -/
theorem Counts.update_nodes (counts : builder.Counts) {opening : Opening} {outer : List Opening}
    (stack : builder.stack = opening :: outer) (length : Nat) (ending : Ending) :
    Arena.update ⟨builder.nodes length⟩ opening.id (fun node => { node with ending }) =
      .ok ⟨(builder.closeInnermost ending).nodes length⟩ := by
  obtain ⟨opened, finished, nextId⟩ := builder
  cases opened with
  | nil => cases stack
  | cons element outer =>
    cases stack
    rw [closeInnermost, nodes_append, nodes, levelNodes,
      Arena.update_eq (counts.around.length_levelNodes length _)]
    simp [OpenElement.close, Region.nodes]

/-- An element on its own adds one node, to the innermost one. -/
theorem reading_grow_selfClosing {tag : Tag} (kind : tag.kind = .selfClosing) (length : Nat) :
    (builder.grow tag).reading length =
      ⟨⟨levelNodes length builder.finished builder.opened [(builder.openingOf tag).id] ++
          [⟨builder.openingOf tag, .selfClosing, some (innermost builder.opened), []⟩]⟩,
        (builder.reading length).opened⟩ := by
  have added : Region.nodes (some (innermost builder.opened))
      [.node (builder.openingOf tag) .selfClosing []] =
      [⟨builder.openingOf tag, .selfClosing, some (innermost builder.opened), []⟩] := by
    simp [Region.nodes]
  rw [grow, kind]
  dsimp only [reading]
  rw [nodes_append, stack_append, added]
  rfl

/-- An opening tag adds one node, to the innermost one, and opens it. -/
theorem reading_grow_opening {tag : Tag} (kind : tag.kind = .opening) (length : Nat) :
    (builder.grow tag).reading length =
      ⟨⟨levelNodes length builder.finished builder.opened [(builder.openingOf tag).id] ++
          [⟨builder.openingOf tag, .unclosed, some (innermost builder.opened), []⟩]⟩,
        builder.nextId :: (builder.reading length).opened⟩ := by
  rw [grow, kind]
  simp [reading, nodes, levelNodes, stack, Region.nodes, openingOf]

/-- A tag that opens an element adds the node of the element. -/
theorem Counts.openTag_reading (counts : builder.Counts) {tag : Tag}
    (opens : tag.kind ≠ .closing) (length : Nat) :
    (builder.reading length).openTag tag = .ok ((builder.grow tag).reading length) := by
  obtain ⟨outer, opened⟩ := builder.opened_reading length
  have size : (builder.reading length).arena.nodes.length = builder.nextId :=
    counts.length_levelNodes length []
  have opening_eq : (⟨builder.nextId, tag.name,
      Attribute.listed tag.attributeSpan.start tag.attributeText, tag.span⟩ : Opening) =
      builder.openingOf tag := rfl
  have pushed : ∀ ending, (builder.reading length).arena.push (innermost builder.opened)
      (builder.openingOf tag) ending = _ :=
    counts.push_levelNodes length (builder.openingOf tag)
  rw [Arena.Reading.openTag, opened]
  dsimp only
  rw [size, opening_eq, pushed, pushed]
  cases kind : tag.kind with
  | closing => exact absurd kind opens
  | selfClosing =>
    rw [if_pos rfl, reading_grow_selfClosing kind, opened]
    rfl
  | opening =>
    rw [if_neg (by decide), reading_grow_opening kind, opened]
    rfl

section Nearest

variable {arena : Arena} {name : String} {opened : List OpenElement}

/-- No opened element is found by a name that none has. -/
theorem nearest?_eq_none
    (known : ∀ element ∈ opened, ∃ node, arena.get element.opening.id = .ok node ∧
      node.opening = element.opening)
    (none : ∀ element ∈ opened, sameName element.opening.name name = false) :
    arena.nearest? name (opened.map (·.opening.id) ++ [0]) = .ok Option.none := by
  induction opened with
  | nil => rfl
  | cons element outer ih =>
    obtain ⟨node, found, same⟩ := known element List.mem_cons_self
    rw [List.map_cons, List.cons_append, Arena.nearest?_cons found, same,
      none element List.mem_cons_self, if_neg Bool.false_ne_true]
    exact ih (fun other member => known other (List.mem_cons_of_mem _ member))
      (fun other member => none other (List.mem_cons_of_mem _ member))

/-- The innermost opened element of a name is found. -/
theorem nearest?_eq_some {inner outer : List OpenElement} {element : OpenElement}
    (known : ∀ other ∈ inner ++ element :: outer, ∃ node,
      arena.get other.opening.id = .ok node ∧ node.opening = other.opening)
    (others : ∀ other ∈ inner, sameName other.opening.name name = false)
    (named : sameName element.opening.name name = true) :
    arena.nearest? name ((inner ++ element :: outer).map (·.opening.id) ++ [0]) =
      .ok (some (element.opening.id, outer.map (·.opening.id) ++ [0])) := by
  induction inner with
  | nil =>
    obtain ⟨node, found, same⟩ := known element List.mem_cons_self
    rw [List.nil_append, List.map_cons, List.cons_append, Arena.nearest?_cons found, same, named,
      if_pos rfl]
  | cons first inner ih =>
    obtain ⟨node, found, same⟩ := known first List.mem_cons_self
    rw [List.cons_append, List.map_cons, List.cons_append, Arena.nearest?_cons found, same,
      others first List.mem_cons_self, if_neg Bool.false_ne_true]
    exact ih (fun other member => known other (List.mem_cons_of_mem _ member))
      (fun other member => others other (List.mem_cons_of_mem _ member))

end Nearest

/-- A closing tag closes the node of the element that it closes. -/
theorem Counts.closeTag_reading (counts : builder.Counts) (tag : Tag) (length : Nat) :
    (builder.reading length).closeTag tag = .ok ((builder.closeTag tag).reading length) := by
  have known : ∀ element ∈ builder.opened, ∃ node,
      (builder.reading length).arena.get element.opening.id = .ok node ∧
        node.opening = element.opening :=
    fun _ member => counts.get_levelNodes length [] member
  have ids : (builder.reading length).opened = builder.opened.map (·.opening.id) ++ [0] := by
    rw [reading, stack, List.map_map]
    rfl
  rw [Arena.Reading.closeTag, ids, Builder.closeTag]
  split
  next missing =>
    rw [nearest?_eq_none known (List.findIdx?_eq_none_iff.1 missing)]
    rfl
  next count found =>
    obtain ⟨inner, element, outer, opened, size, named, others⟩ := exists_nearest found
    rw [opened] at known
    rw [opened, nearest?_eq_some known others named]
    have left : (builder.abandon count).stack = element.opening :: outer.map (·.opening) := by
      rw [(builder.abandon_entries_stack count).2, stack, opened, List.map_append,
        List.drop_left' (by rw [List.length_map, size]), List.map_cons]
    -- The elements inside are never closed, which their nodes say already.
    have closed := (counts.abandon count).update_nodes left length (.closedBy tag.span)
    rw [nodes_abandon] at closed
    dsimp only [bind, Except.bind]
    rw [reading, closed]
    dsimp only [pure, Except.pure]
    rw [reading, stack_closeInnermost, left, List.tail_cons, List.map_map]
    rfl

/-- A tag changes the nodes as it changes the tree. -/
theorem Counts.addTag_reading (counts : builder.Counts) (tag : Tag) (length : Nat) :
    (builder.reading length).addTag tag = .ok ((builder.grow tag).reading length) := by
  rw [Arena.Reading.addTag]
  split
  next closes =>
    have grown : builder.grow tag = builder.closeTag tag := by rw [Builder.grow, closes]
    rw [grown, counts.closeTag_reading]
  next opens => exact counts.openTag_reading opens length

/-- All tags together add the nodes of their elements. -/
theorem Counts.foldlM_addTag_reading (counts : builder.Counts) (tags : List Tag) (length : Nat) :
    tags.foldlM Arena.Reading.addTag (builder.reading length) =
      .ok ((tags.foldl Builder.grow builder).reading length) := by
  induction tags generalizing builder with
  | nil => rfl
  | cons tag more ih =>
    rw [List.foldlM_cons, counts.addTag_reading]
    exact ih (counts.grow tag)

end Tag

end Builder

/-- Tags give the nodes of the tree that is grown from them. -/
theorem Arena.ofTags_eq (length : Nat) (tags : List Tag) :
    ofTags length tags = .ok ((tags.foldl Builder.grow .start).finish length).arena := by
  have first : Reading.start length = Builder.start.reading length := by
    simp [Reading.start, Builder.reading, Builder.nodes, Builder.levelNodes, Builder.start,
      Builder.stack, Region.nodes]
  rw [ofTags, first, Builder.counts_start.foldlM_addTag_reading, Builder.arena_finish]
  rfl

end SfcIndex.Markup
