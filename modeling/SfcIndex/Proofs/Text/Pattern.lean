import Mathlib.Data.List.Basic
import SfcIndex.Proofs.Text.Slice

/-! # Patterns

A pattern is a sequence of pieces. Each piece has several ways to take the start of a text, in an
order of preference, and a match takes the first way for which the rest of the pattern matches too
(`Text.firstMatch?`). So a pattern matches where its pieces can be found one behind the other at all
(`Text.firstMatch?_eq_none_iff`), and the order of preference decides which match it is
(`Text.firstMatch?_many`, `Text.firstMatch?_few`).
-/

namespace SfcIndex.Text

/-- A piece of a pattern. -/
inductive Piece where
  /-- One character that passes a test. -/
  | one (test : Char → Bool)
  /-- Characters that pass a test, as many as possible. -/
  | many (test : Char → Bool)
  /-- Characters that pass a test, as few as possible. -/
  | few (test : Char → Bool)
  /-- One of several words, the first of them that fits. -/
  | word (choices : List (List Char))

namespace Piece

/-- The ways to cut a text behind characters that pass a test, the shortest first. -/
def cuts (test : Char → Bool) : List Char → List (List Char × List Char)
  | [] => [([], [])]
  | c :: rest =>
    ([], c :: rest) ::
      if test c then (cuts test rest).map fun cut => (c :: cut.1, cut.2) else []

/-- The ways in which a piece can take the start of a text, the preferred one first, each with what
is left of the text. -/
def ways : Piece → List Char → List (List Char × List Char)
  | one _, [] => []
  | one test, c :: rest => if test c then [([c], rest)] else []
  | many test, text => (cuts test text).reverse
  | few test, text => cuts test text
  | word choices, text =>
    choices.filterMap fun choice => (choice.isPrefixOf? text).map fun rest => (choice, rest)

/-- Whether a piece can take a text as a whole. -/
def Accepts : Piece → List Char → Prop
  | one test, part => ∃ c, part = [c] ∧ test c = true
  | many test, part => ∀ c ∈ part, test c = true
  | few test, part => ∀ c ∈ part, test c = true
  | word choices, part => part ∈ choices

/-- A text is cut behind any characters that pass the test. -/
theorem mem_cuts_iff {test : Char → Bool} {text part rest : List Char} :
    (part, rest) ∈ cuts test text ↔ text = part ++ rest ∧ ∀ c ∈ part, test c = true := by
  induction text generalizing part with
  | nil =>
    rw [cuts, List.mem_singleton]
    constructor
    · intro same
      cases same
      exact ⟨rfl, by simp⟩
    · intro holds
      obtain ⟨whole, _⟩ := holds
      obtain ⟨rfl, rfl⟩ := List.append_eq_nil_iff.1 whole.symm
      rfl
  | cons c text ih =>
    rw [cuts, List.mem_cons]
    constructor
    · intro member
      rcases member with same | later
      · cases same
        exact ⟨rfl, by simp⟩
      · split at later
        next passes =>
          obtain ⟨⟨front, after⟩, found, same⟩ := List.mem_map.1 later
          cases same
          obtain ⟨rfl, all⟩ := ih.1 found
          refine ⟨rfl, ?_⟩
          intro d member
          rcases List.mem_cons.1 member with rfl | member
          · exact passes
          · exact all d member
        next => cases later
    · intro holds
      obtain ⟨whole, all⟩ := holds
      cases part with
      | nil => exact .inl (by rw [whole]; rfl)
      | cons d front =>
        cases whole
        right
        rw [if_pos (all c List.mem_cons_self)]
        refine List.mem_map.2 ⟨(front, rest), ih.2 ⟨rfl, ?_⟩, rfl⟩
        exact fun d member => all d (List.mem_cons_of_mem _ member)

/-- A piece takes what it accepts. -/
theorem mem_ways_iff {piece : Piece} {text part rest : List Char} :
    (part, rest) ∈ piece.ways text ↔ text = part ++ rest ∧ piece.Accepts part := by
  cases piece with
  | one test =>
    cases text with
    | nil =>
      refine iff_of_false List.not_mem_nil ?_
      intro holds
      obtain ⟨whole, c, single, _⟩ := holds
      rw [single] at whole
      cases whole
    | cons c text =>
      rw [ways, Accepts]
      constructor
      · intro member
        split at member
        next passes =>
          cases List.mem_singleton.1 member
          exact ⟨rfl, c, rfl, passes⟩
        next => cases member
      · intro holds
        obtain ⟨whole, d, single, passes⟩ := holds
        subst single
        cases whole
        rw [if_pos passes]
        exact List.mem_singleton.2 rfl
  | many test =>
    rw [ways, List.mem_reverse]
    exact mem_cuts_iff
  | few test => exact mem_cuts_iff
  | word choices =>
    rw [ways, List.mem_filterMap]
    constructor
    · intro holds
      obtain ⟨choice, member, found⟩ := holds
      obtain ⟨after, starts, same⟩ := Option.map_eq_some_iff.1 found
      cases same
      exact ⟨(List.isPrefixOf?_eq_some_iff_append_eq.1 starts).symm, member⟩
    · intro holds
      obtain ⟨whole, member⟩ := holds
      refine ⟨part, member, ?_⟩
      rw [List.isPrefixOf?_eq_some_iff_append_eq.2 whole.symm]
      rfl

end Piece

/-- The match of a pattern at the start of a text: what its pieces take, and what is left of the
text. -/
def firstMatch? : List Piece → List Char → Option (List (List Char) × List Char)
  | [], text => some ([], text)
  | piece :: more, text =>
    (piece.ways text).findSome? fun way =>
      (firstMatch? more way.2).map fun found => (way.1 :: found.1, found.2)

/-- The pieces of a pattern take the parts of a text, one behind the other. -/
def MatchesAs (pattern : List Piece) (text : List Char) (parts : List (List Char))
    (rest : List Char) : Prop :=
  text = parts.flatten ++ rest ∧ List.Forall₂ Piece.Accepts pattern parts

/-- The first match is a match. -/
theorem matchesAs_of_firstMatch? {pattern : List Piece} {text rest : List Char}
    {parts : List (List Char)} (found : firstMatch? pattern text = some (parts, rest)) :
    MatchesAs pattern text parts rest := by
  induction pattern generalizing text parts with
  | nil =>
    cases found
    exact ⟨rfl, .nil⟩
  | cons piece more ih =>
    obtain ⟨⟨part, after⟩, way, continued⟩ := List.exists_of_findSome?_eq_some found
    obtain ⟨⟨parts', rest'⟩, later, same⟩ := Option.map_eq_some_iff.1 continued
    cases same
    obtain ⟨whole, accepts⟩ := Piece.mem_ways_iff.1 way
    obtain ⟨whole', all⟩ := ih later
    dsimp only at whole'
    refine ⟨?_, .cons accepts all⟩
    rw [whole, whole', List.flatten_cons, List.append_assoc]

/-- There is a first match when there is any. -/
theorem firstMatch?_isSome {pattern : List Piece} {text rest : List Char}
    {parts : List (List Char)} (known : MatchesAs pattern text parts rest) :
    (firstMatch? pattern text).isSome = true := by
  obtain ⟨whole, all⟩ := known
  induction all generalizing text with
  | nil => rfl
  | @cons piece part more parts accepts _ ih =>
    rw [List.flatten_cons, List.append_assoc] at whole
    rw [firstMatch?, List.findSome?_isSome_iff]
    refine ⟨(part, parts.flatten ++ rest), Piece.mem_ways_iff.2 ⟨whole, accepts⟩, ?_⟩
    rw [Option.isSome_map]
    exact ih rfl

/-- A pattern fails only where its pieces cannot be found one behind the other. -/
theorem firstMatch?_eq_none_iff {pattern : List Piece} {text : List Char} :
    firstMatch? pattern text = none ↔ ∀ parts rest, ¬ MatchesAs pattern text parts rest := by
  constructor
  · intro none parts rest known
    have some := firstMatch?_isSome known
    rw [none] at some
    cases some
  · intro none
    cases found : firstMatch? pattern text with
    | none => rfl
    | some result => exact absurd (matchesAs_of_firstMatch? found) (none _ _)

section Preference

variable {test : Char → Bool} {more : List Piece} {front text rest : List Char}
  {parts : List (List Char)}

/-- A character that passes is matched in front of a match of the rest. -/
theorem firstMatch?_one {c : Char} (passes : test c = true)
    (found : firstMatch? more text = some (parts, rest)) :
    firstMatch? (.one test :: more) (c :: text) = some ([c] :: parts, rest) := by
  rw [firstMatch?, Piece.ways, if_pos passes, List.findSome?_cons, found]
  rfl

/-- Nothing matches where the next character does not pass. -/
theorem firstMatch?_one_eq_none (stops : ∀ c ∈ text.head?, test c = false) :
    firstMatch? (.one test :: more) text = none := by
  cases text with
  | nil => rfl
  | cons c text =>
    rw [firstMatch?, Piece.ways, if_neg (by rw [stops c rfl]; exact Bool.false_ne_true)]
    rfl

/-- The cuts of a text come in the order of their length. -/
theorem Piece.exists_cuts (passes : ∀ c ∈ front, test c = true) (text : List Char) :
    ∃ shorter longer, cuts test (front ++ text) = shorter ++ (front, text) :: longer ∧
      (∀ cut ∈ shorter, ∃ tail, tail ≠ [] ∧ front = cut.1 ++ tail ∧ cut.2 = tail ++ text) ∧
      ((∀ c ∈ text.head?, test c = false) → longer = []) := by
  induction front with
  | nil =>
    cases text with
    | nil => exact ⟨[], [], rfl, by simp, fun _ => rfl⟩
    | cons c text =>
      refine ⟨[], _, rfl, by simp, ?_⟩
      intro stops
      rw [if_neg (by rw [stops c rfl]; exact Bool.false_ne_true)]
  | cons c front ih =>
    obtain ⟨shorter, longer, parted, before, behind⟩ :=
      ih fun d member => passes d (List.mem_cons_of_mem _ member)
    refine ⟨([], c :: (front ++ text)) :: shorter.map fun cut => (c :: cut.1, cut.2),
      longer.map fun cut => (c :: cut.1, cut.2), ?_, ?_, ?_⟩
    · rw [List.cons_append, cuts, if_pos (passes c List.mem_cons_self), parted, List.map_append]
      rfl
    · intro cut member
      rcases List.mem_cons.1 member with rfl | member
      · exact ⟨c :: front, List.cons_ne_nil _ _, rfl, rfl⟩
      · obtain ⟨cut', known, rfl⟩ := List.mem_map.1 member
        obtain ⟨tail, some, whole, rest⟩ := before cut' known
        exact ⟨tail, some, by rw [whole]; rfl, rest⟩
    · intro stops
      rw [behind stops, List.map_nil]

/-- A piece that takes as many characters as possible takes all of a run if the rest of the pattern
matches behind it. -/
theorem firstMatch?_many (passes : ∀ c ∈ front, test c = true)
    (stops : ∀ c ∈ text.head?, test c = false)
    (found : firstMatch? more text = some (parts, rest)) :
    firstMatch? (.many test :: more) (front ++ text) = some (front :: parts, rest) := by
  obtain ⟨shorter, longer, parted, -, none⟩ := Piece.exists_cuts passes text
  rw [firstMatch?, Piece.ways, parted, none stops, List.reverse_append, List.reverse_singleton,
    List.singleton_append, List.findSome?_cons, found]
  rfl

/-- A piece that takes as few characters as possible goes on to the first place where the rest of
the pattern matches. -/
theorem firstMatch?_few (passes : ∀ c ∈ front, test c = true)
    (fails : ∀ lead tail, front = lead ++ tail → tail ≠ [] → firstMatch? more (tail ++ text) = none)
    (found : firstMatch? more text = some (parts, rest)) :
    firstMatch? (.few test :: more) (front ++ text) = some (front :: parts, rest) := by
  obtain ⟨shorter, longer, parted, before, -⟩ := Piece.exists_cuts passes text
  rw [firstMatch?, Piece.ways, List.findSome?_eq_some_iff]
  refine ⟨shorter, (front, text), longer, parted, by rw [found]; rfl, ?_⟩
  intro cut member
  obtain ⟨tail, some, whole, after⟩ := before cut member
  rw [after, fails cut.1 tail whole some]
  rfl

end Preference

/-- The matches of a pattern in a text from byte `offset` on, each with its place. After a match the
search goes on behind it: the next `skip` characters belong to the last one. -/
def occurrences (pattern : List Piece) : Nat → Nat → List Char → List (Nat × List (List Char))
  | _, _, [] => []
  | offset, skip + 1, c :: rest => occurrences pattern (offset + c.utf8Size) skip rest
  | offset, 0, c :: rest =>
    match firstMatch? pattern (c :: rest) with
    | none => occurrences pattern (offset + c.utf8Size) 0 rest
    | some (parts, _) =>
      (offset, parts) ::
        occurrences pattern (offset + c.utf8Size) (parts.flatten.length - 1) rest

/-- The pattern matches at a byte offset of a text, where its pieces take the given parts. -/
def MatchAt (pattern : List Piece) (text : List Char) (start : Nat) (parts : List (List Char)) :
    Prop :=
  ∃ before after rest, text = before ++ after ∧ after ≠ [] ∧ width before = start ∧
    firstMatch? pattern after = some (parts, rest)

/-- No match of the pattern starts inside another one. -/
def Apart (pattern : List Piece) : Prop :=
  ∀ text parts rest, firstMatch? pattern text = some (parts, rest) →
    ∀ count, 0 < count → count < parts.flatten.length →
      firstMatch? pattern (text.drop count) = none

section Occurrences

variable {pattern : List Piece} {text : List Char} {offset skip : Nat}

/-- A match is found behind where the search starts. -/
theorem le_of_mem_occurrences {place : Nat × List (List Char)}
    (member : place ∈ occurrences pattern offset skip text) : offset ≤ place.1 := by
  fun_induction occurrences pattern offset skip text with
  | case1 => cases member
  | case2 offset skip c rest ih => exact Nat.le_of_add_right_le (ih member)
  | case3 offset c rest none ih => exact Nat.le_of_add_right_le (ih member)
  | case4 offset c rest parts _ found ih =>
    rcases List.mem_cons.1 member with rfl | later
    · exact Nat.le_refl _
    · exact Nat.le_of_add_right_le (ih later)

/-- The matches are found from the left to the right. -/
theorem occurrences_pairwise (pattern : List Piece) (offset skip : Nat) (text : List Char) :
    (occurrences pattern offset skip text).Pairwise fun first second => first.1 < second.1 := by
  fun_induction occurrences pattern offset skip text with
  | case1 => exact .nil
  | case2 offset skip c rest ih => exact ih
  | case3 offset c rest none ih => exact ih
  | case4 offset c rest parts _ found ih =>
    refine List.pairwise_cons.2 ⟨?_, ih⟩
    intro place later
    have positive := c.utf8Size_pos
    have := le_of_mem_occurrences later
    dsimp only
    omega

/-- A pattern matches at the start of a text or in its rest. -/
theorem matchAt_cons_iff {c : Char} {rest : List Char} {start : Nat} {parts : List (List Char)} :
    MatchAt pattern (c :: rest) start parts ↔
      (start = 0 ∧ ∃ left, firstMatch? pattern (c :: rest) = some (parts, left)) ∨
        ∃ more, start = c.utf8Size + more ∧ MatchAt pattern rest more parts := by
  constructor
  · intro holds
    obtain ⟨before, after, left, whole, nonempty, place, found⟩ := holds
    cases before with
    | nil =>
      cases whole
      exact .inl ⟨place.symm, left, found⟩
    | cons d before =>
      cases whole
      exact .inr ⟨width before, place.symm, before, after, left, rfl, nonempty, rfl, found⟩
  · intro parts
    rcases parts with ⟨start_eq, left, found⟩ | ⟨more, start_eq, before, after, left, whole, parts⟩
    · exact ⟨[], c :: rest, left, rfl, List.cons_ne_nil _ _, start_eq.symm, found⟩
    · obtain ⟨nonempty, place, found⟩ := parts
      refine ⟨c :: before, after, left, by rw [whole]; rfl, nonempty, ?_, found⟩
      rw [width_cons, place, start_eq]

/-- Where no match starts inside another one, going on behind each match leaves none out. -/
theorem mem_occurrences_iff (apart : Apart pattern) {place : Nat × List (List Char)}
    (skipped : ∀ count < skip, firstMatch? pattern (text.drop count) = none) :
    place ∈ occurrences pattern offset skip text ↔
      ∃ start, place.1 = offset + start ∧ MatchAt pattern text start place.2 := by
  have later : ∀ {offset : Nat} {c : Char} {rest : List Char},
      firstMatch? pattern (c :: rest) = none →
      ((∃ start, place.1 = offset + c.utf8Size + start ∧ MatchAt pattern rest start place.2) ↔
        ∃ start, place.1 = offset + start ∧ MatchAt pattern (c :: rest) start place.2) := by
    intro offset c rest none
    simp only [matchAt_cons_iff]
    constructor
    · intro holds
      obtain ⟨start, place_eq, found⟩ := holds
      exact ⟨c.utf8Size + start, by omega, .inr ⟨start, rfl, found⟩⟩
    · intro holds
      obtain ⟨start, place_eq, found⟩ := holds
      rcases found with ⟨-, left, found⟩ | ⟨more, start_eq, found⟩
      · rw [none] at found
        cases found
      · exact ⟨more, by omega, found⟩
  fun_induction occurrences pattern offset skip text with
  | case1 offset skip =>
    refine iff_of_false List.not_mem_nil ?_
    intro holds
    obtain ⟨start, _, before, after, left, whole, nonempty, _⟩ := holds
    exact nonempty (List.append_eq_nil_iff.1 whole.symm).2
  | case2 offset skip c rest ih =>
    have none := skipped 0 (Nat.succ_pos skip)
    exact (ih fun count small => skipped (count + 1) (Nat.succ_lt_succ small)).trans (later none)
  | case3 offset c rest none ih =>
    exact (ih fun count small => absurd small (Nat.not_lt_zero count)).trans (later none)
  | case4 offset c rest parts left found ih =>
    have inside : ∀ count < parts.flatten.length - 1,
        firstMatch? pattern (rest.drop count) = none := by
      intro count small
      exact apart _ _ _ found (count + 1) (Nat.succ_pos count) (by omega)
    have behind := ih inside
    simp only [List.mem_cons, matchAt_cons_iff]
    constructor
    · intro member
      rcases member with rfl | member
      · exact ⟨0, rfl, .inl ⟨rfl, left, found⟩⟩
      · obtain ⟨start, place_eq, known⟩ := behind.1 member
        exact ⟨c.utf8Size + start, by omega, .inr ⟨start, rfl, known⟩⟩
    · intro holds
      obtain ⟨start, place_eq, known⟩ := holds
      rcases known with ⟨start_eq, left', found'⟩ | ⟨more, start_eq, known⟩
      · rw [found] at found'
        cases found'
        exact .inl (Prod.ext (by omega) rfl)
      · exact .inr (behind.2 ⟨more, by omega, known⟩)

end Occurrences

end SfcIndex.Text
