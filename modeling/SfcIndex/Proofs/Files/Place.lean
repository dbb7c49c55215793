import Mathlib.Data.List.Basic
import SfcIndex.Files.Disk

/-! # Where paths lead

`place` is where a path leads from a working directory, as the names on the way down from the top of
the file system; what a path finds in a tree stands there (`Tree.at?_place`). A path without a step
upwards is told by where it leads and by how it starts: with a name, a dot or a slash
(`parts_eq_of_place`).
-/

namespace SfcIndex.Files

/-- The names on the way after one more part of a path. -/
def Part.follow (names : List String) : Part → List String
  | root => []
  | here => names
  | above => names.dropLast
  | name text => names ++ [text]

/-- The names on the way to where a path leads from a working directory. -/
def place (directory : List String) (path : String) : List String :=
  (parts path).foldl Part.follow directory

/-- Whether a path has a step upwards in it. -/
def climbs (path : String) : Bool := (parts path).contains .above

/-- What stands in front of the names of a path. -/
inductive Start where
  | plain
  | dot
  | slash
  deriving Repr, DecidableEq

/-- How a path starts. -/
def start (path : String) : Start :=
  match (parts path).head? with
  | some .root => .slash
  | some .here => .dot
  | _ => .plain

/-- The parts that a start is. -/
def Start.parts : Start → List Part
  | plain => []
  | dot => [.here]
  | slash => [.root]

/-- Where the names of a path start to count. -/
def Start.base (directory : List String) : Start → List String
  | slash => []
  | _ => directory

/-- A piece of a path is a step upwards or a name. -/
theorem step_of_ofPiece? {piece : String} {part : Part} (is : Part.ofPiece? piece = some part) :
    part = .above ∨ ∃ name, part = .name name := by
  unfold Part.ofPiece? at is
  split at is
  · cases is
  · split at is
    · cases is
      exact .inl rfl
    · cases is
      exact .inr ⟨piece, rfl⟩

/-- A path has a dot or a slash at its start at most, and then the parts of its pieces. -/
theorem exists_start (path : String) :
    ∃ begin : Start, ∃ pieces : List String,
      parts path = begin.parts ++ pieces.filterMap Part.ofPiece? := by
  unfold parts
  split
  · exact ⟨.plain, [], rfl⟩
  · exact ⟨.slash, _, rfl⟩
  · exact ⟨.dot, _, rfl⟩
  · exact ⟨.plain, _, rfl⟩

/-- Pieces without a step upwards are names. -/
theorem exists_names {pieces : List String}
    (level : Part.above ∉ pieces.filterMap Part.ofPiece?) :
    ∃ names : List String, pieces.filterMap Part.ofPiece? = names.map Part.name := by
  induction pieces with
  | nil => exact ⟨[], rfl⟩
  | cons piece rest ih =>
    cases is : Part.ofPiece? piece with
    | none =>
      rw [List.filterMap_cons_none is] at level ⊢
      exact ih level
    | some part =>
      rw [List.filterMap_cons_some is] at level ⊢
      obtain ⟨names, rest_eq⟩ := ih (mt (List.mem_cons_of_mem _) level)
      obtain rfl | ⟨name, rfl⟩ := step_of_ofPiece? is
      · exact absurd List.mem_cons_self level
      · exact ⟨name :: names, by rw [rest_eq, List.map_cons]⟩

/-- A path without a step upwards is its start and names. -/
theorem parts_of_level {path : String} (level : climbs path = false) :
    ∃ names : List String, parts path = (start path).parts ++ names.map Part.name := by
  obtain ⟨begin, pieces, cut⟩ := exists_start path
  have above : Part.above ∉ parts path := by simpa [climbs] using level
  rw [cut, List.mem_append, not_or] at above
  obtain ⟨names, names_eq⟩ := exists_names above.2
  rw [names_eq] at cut
  have start_eq : start path = begin := by
    rw [start, cut]
    cases begin with
    | plain => cases names <;> rfl
    | dot => rfl
    | slash => rfl
  exact ⟨names, by rw [start_eq, cut]⟩

/-- Names lead down. -/
theorem foldl_follow_names (outer names : List String) :
    (names.map Part.name).foldl Part.follow outer = outer ++ names := by
  induction names generalizing outer with
  | nil => rw [List.map_nil, List.foldl_nil, List.append_nil]
  | cons name rest ih =>
    rw [List.map_cons, List.foldl_cons, ih, Part.follow, List.append_assoc, List.singleton_append]

/-- A path that is its start and names leads down these names. -/
theorem place_of_parts {path : String} {begin : Start} {names : List String}
    (cut : parts path = begin.parts ++ names.map Part.name) (directory : List String) :
    place directory path = begin.base directory ++ names := by
  have base : begin.parts.foldl Part.follow directory = begin.base directory := by
    cases begin <;> rfl
  rw [place, cut, List.foldl_append, base, foldl_follow_names]

/-- Of the paths without a step upwards that start in the same way, only those with the same parts
lead to the same place. -/
theorem parts_eq_of_place {directory : List String} {first second : String}
    (level : climbs first = false) (level' : climbs second = false)
    (begins : start first = start second)
    (leads : place directory first = place directory second) : parts first = parts second := by
  obtain ⟨names, cut⟩ := parts_of_level level
  obtain ⟨names', cut'⟩ := parts_of_level level'
  rw [place_of_parts cut, place_of_parts cut', begins, List.append_cancel_left_eq] at leads
  rw [cut, cut', begins, leads]

/-- Paths with the same parts lead to the same place. -/
theorem place_eq_of_parts {first second : String} (same : parts first = parts second)
    (directory : List String) : place directory first = place directory second := by
  rw [place, place, same]

/-- Paths with the same parts start in the same way. -/
theorem start_eq_of_parts {first second : String} (same : parts first = parts second) :
    start first = start second := by
  rw [start, start, same]

/-- A path that is not empty starts with a slash when its first piece is empty. -/
theorem startsWith_iff_pieces {path : String} (nonempty : path ≠ "") :
    path.startsWith "/" = true ↔ (pieces path).head? = some "" := by
  cases chars : path.toList with
  | nil => exact absurd (String.toList_inj.1 chars) nonempty
  | cons c more =>
    obtain ⟨first, later, split⟩ := List.exists_cons_of_ne_nil (List.splitOn_ne_nil '/' more)
    rw [String.startsWith_string_iff, pieces, chars, List.splitOn_cons_eq_if_modifyHead]
    by_cases slash : c = '/'
    · rw [if_pos (beq_iff_eq.2 slash), slash]
      exact iff_of_true ⟨more, rfl⟩ rfl
    · rw [if_neg (mt beq_iff_eq.1 slash), split]
      refine iff_of_false ?_ ?_
      · rintro ⟨rest, same⟩
        exact slash (List.cons.inj same).1.symm
      · intro empty
        have chars_eq := congrArg String.toList (Option.some.inj empty)
        rw [String.toList_ofList] at chars_eq
        cases chars_eq

/-- Only the empty path is cut into one empty piece. -/
theorem eq_empty_of_pieces {path : String} (pieces_eq : pieces path = [""]) : path = "" := by
  obtain ⟨chars, split, empty⟩ := List.map_eq_singleton_iff.1 pieces_eq
  have joined : ['/'].intercalate (path.toList.splitOn '/') = path.toList :=
    List.intercalate_splitOn '/'
  rw [split, List.intercalate_singleton, ← String.toList_ofList (l := chars), empty] at joined
  exact String.toList_inj.1 joined.symm

/-- A path leads where its pieces lead, from the top or from the working directory. -/
theorem place_eq_foldl {path : String} (nonempty : path ≠ "") (directory : List String) :
    place directory path = ((pieces path).filterMap Part.ofPiece?).foldl Part.follow
      (if path.startsWith "/" then [] else directory) := by
  have absolute := startsWith_iff_pieces nonempty
  unfold place parts
  split
  next cut => exact absurd (eq_empty_of_pieces cut) nonempty
  next rest _ cut =>
    rw [cut] at absolute
    rw [if_pos (absolute.2 rfl), cut]
    rfl
  next rest cut =>
    rw [cut] at absolute
    rw [if_neg fun starts => absurd (absolute.1 starts) (by simp), cut]
    rfl
  next rooted _ =>
    rw [if_neg]
    intro starts
    obtain ⟨rest, cut⟩ := List.head?_eq_some_iff.1 (absolute.1 starts)
    exact rooted rest cut

namespace Tree

/-- What the names on the way down from the top of a tree lead to. -/
def at? (tree : Tree) : List String → Option Tree
  | [] => some tree
  | name :: rest => (tree.entries.lookup name).bind (·.at? rest)

/-- An entry with the names on the way to it, and the directories on the way, the nearest first. -/
inductive Reached (tree : Tree) : List String → List Tree → Tree → Prop
  | top : Reached tree [] [] tree
  | down {names : List String} {above : List Tree} {here entry : Tree} {name : String}
      (reached : Reached tree names above here) (found : here.entries.lookup name = some entry) :
      Reached tree (names ++ [name]) (here :: above) entry

variable {tree here entry : Tree} {names directory : List String} {above : List Tree}

/-- One more name is looked up in what the others lead to. -/
theorem at?_concat (tree : Tree) (names : List String) (name : String) :
    tree.at? (names ++ [name]) = (tree.at? names).bind fun here => here.entries.lookup name := by
  induction names generalizing tree with
  | nil =>
    rw [List.nil_append, at?, at?, Option.bind_some]
    cases tree.entries.lookup name <;> rfl
  | cons first rest ih =>
    rw [List.cons_append, at?, at?]
    cases tree.entries.lookup first with
    | none => rfl
    | some next => exact ih next

/-- An entry that is reached stands at the names on the way to it. -/
theorem Reached.at?_eq (reached : Reached tree names above here) : tree.at? names = some here := by
  induction reached with
  | top => rfl
  | down reached found ih => rw [at?_concat, ih, Option.bind_some, found]

/-- Going down the pieces of a path is following its parts. -/
theorem Reached.descend (reached : Reached tree names above here) {pieces : List String}
    (found : Tree.descend above here pieces = .ok entry) :
    ∃ above', Reached tree ((pieces.filterMap Part.ofPiece?).foldl Part.follow names) above'
      entry := by
  induction pieces generalizing names above here with
  | nil =>
    cases found
    exact ⟨above, reached⟩
  | cons piece rest ih =>
    cases here with
    | file content => cases found
    | directory entries =>
      unfold Tree.descend at found
      dsimp only at found
      by_cases still : piece = "" ∨ piece = "."
      · have nothing : Part.ofPiece? piece = none := if_pos (by simpa using still)
        rw [if_pos (by simpa using still)] at found
        rw [List.filterMap_cons_none nothing]
        exact ih reached found
      · rw [if_neg (by simpa using still)] at found
        by_cases upward : piece = ".."
        · subst upward
          have up : Part.ofPiece? ".." = some .above := rfl
          rw [if_pos rfl] at found
          rw [List.filterMap_cons_some up, List.foldl_cons]
          cases reached with
          | top => exact ih .top found
          | down outer _ =>
            rw [Part.follow, List.dropLast_concat]
            exact ih outer found
        · have down : Part.ofPiece? piece = some (.name piece) := by
            rw [Part.ofPiece?, if_neg (by simpa using still), if_neg upward]
          rw [if_neg upward] at found
          rw [List.filterMap_cons_some down]
          cases known : entries.lookup piece with
          | none =>
            rw [known] at found
            cases found
          | some entry =>
            rw [known] at found
            exact ih (reached.down known) found

/-- What a path finds in a tree stands where the path leads. -/
theorem at?_place (proper : ∀ name ∈ directory, Part.ofPiece? name = some (.name name))
    {path : String} (found : tree.find directory path = .ok entry) :
    tree.at? (place directory path) = some entry := by
  have names : directory.filterMap Part.ofPiece? = directory.map Part.name :=
    List.filterMap_eq_map_iff_forall_eq_some.2 proper
  unfold find at found
  split at found
  next => cases found
  next nonempty =>
    rw [place_eq_foldl nonempty]
    split at found
    next absolute =>
      obtain ⟨above, reached⟩ := Reached.top.descend found
      rw [if_pos absolute]
      exact reached.at?_eq
    next relative =>
      obtain ⟨above, reached⟩ := Reached.top.descend found
      rw [List.filterMap_append, names, List.foldl_append, foldl_follow_names,
        List.nil_append] at reached
      rw [if_neg relative]
      exact reached.at?_eq

end Tree

end SfcIndex.Files
