import Mathlib.Data.List.Forall2
import SfcIndex.Proofs.Style.Comments
import SfcIndex.Proofs.Style.Scan
import SfcIndex.Proofs.Text.Pattern
import SfcIndex.Proofs.Text.Words

/-! # The selectors of a style

`SelectorAt` says where a selector stands directly before a rule's block, and `DefinedAt` which name
it defines there. A scan finds what is defined outside of comments (`Style.mem_scan_iff`). So does a
search for the pattern `selector` in the whole style, comments included, since no match starts
inside another one (`Style.selector_apart`, `Style.bindings_eq_matched`). A style has one name for
each selector outside of its comments and no other names (`Style.bindings_exact`).
-/

namespace SfcIndex.Text.Unicode

/-- A character in ranges that lie apart from others is in none of these. -/
theorem inRanges_eq_false {c : Char} {first second : List (Nat × Nat)}
    (apart : ∀ range ∈ first, ∀ other ∈ second, range.2 < other.1 ∨ other.2 < range.1)
    (found : inRanges first c = true) : inRanges second c = false := by
  obtain ⟨range, member, holds⟩ := List.any_eq_true.1 found
  rw [inRanges, List.any_eq_false]
  intro other member' holds'
  rw [Bool.and_eq_true, decide_eq_true_iff, decide_eq_true_iff] at holds holds'
  rcases apart range member other member' with below | above
  · omega
  · omega

/-- White space is no part of words. -/
theorem isWordLike_of_isBlank {c : Char} (blank : isBlank c = true) : isWordLike c = false := by
  have codes := blank
  simp only [isBlank, inRanges, blankRanges, List.any_cons, List.any_nil, Bool.or_false,
    Bool.or_eq_true, Bool.and_eq_true, decide_eq_true_iff] at codes
  unfold isWordLike
  split
  next ascii =>
    have letter : ¬ c.isAlphanum = true := by
      rw [isAlphanum_iff]
      omega
    have other : c ≠ '_' := by
      rintro rfl
      cases blank
    rw [Bool.eq_false_iff.2 letter, decide_eq_false other]
    rfl
  next =>
    have letter : isLetter c = false := inRanges_eq_false (by decide +kernel) blank
    have mark : isMark c = false := inRanges_eq_false (by decide +kernel) blank
    have digit : isDigit c = false := inRanges_eq_false (by decide +kernel) blank
    have connector : inRanges connectorRanges c = false := inRanges_eq_false (by decide) blank
    have enclosed : inRanges enclosedLetterRanges c = false := inRanges_eq_false (by decide) blank
    have joiner : isJoiner c = false := by
      rw [isJoiner, Bool.or_eq_false_iff, decide_eq_false_iff_not, decide_eq_false_iff_not]
      omega
    rw [letter, mark, digit, connector, enclosed, joiner]
    rfl

end SfcIndex.Text.Unicode

namespace SfcIndex.Style

open Text

/-- The signs that introduce a name, with the category of the name. -/
inductive Sigil : Char → Category → Prop
  | dot : Sigil '.' .styleClass
  | hash : Sigil '#' .styleId

/-- A longest name stands directly before a rule's block, with what is behind the name. -/
structure Heads (name behind : List Char) : Prop where
  nonempty : name ≠ []
  word : ∀ c ∈ name, isSelectorChar c = true
  longest : ∀ c ∈ behind.head?, isSelectorChar c = false
  block : ∃ gap after, behind = gap ++ '\x7b' :: after ∧ ∀ c ∈ gap, Unicode.isBlank c = true

/-- A sign stands at a byte of a style that is read from byte `offset` on, and behind it a name
directly before a rule's block. -/
def SelectorAt (offset : Nat) (text : List Char) (start : Nat) (sigil : Char)
    (name : List Char) : Prop :=
  ∃ before behind, text = before ++ sigil :: (name ++ behind) ∧ offset + width before = start ∧
    Heads name behind

/-- The name that the selector at a byte of a style defines: it is placed at its end. -/
def DefinedAt (offset : Nat) (text : List Char) (start : Nat) (binding : Binding) : Prop :=
  ∃ sigil category name, Sigil sigil category ∧ SelectorAt offset text start sigil name ∧
    binding = { name := String.ofList name, category, position := start + 1 + width name }

/-- The sigils of the scan are those of the specification. -/
theorem sigilCategory?_eq_some_iff {sigil : Char} {category : Category} :
    sigilCategory? sigil = some category ↔ Sigil sigil category := by
  constructor
  · intro found
    rcases eq_of_sigilCategory? found with ⟨rfl, rfl⟩ | ⟨rfl, rfl⟩
    · exact .hash
    · exact .dot
  · intro known
    cases known with
    | dot => rfl
    | hash => rfl

/-- A sigil is one byte. -/
theorem Sigil.utf8Size_eq {sigil : Char} {category : Category} (known : Sigil sigil category) :
    sigil.utf8Size = 1 := by
  cases known with
  | dot => rfl
  | hash => rfl

/-- The scan reads a name exactly where one heads the text. -/
theorem selectorName?_eq_some_iff {text name : List Char} :
    selectorName? text = some name ↔ ∃ behind, text = name ++ behind ∧ Heads name behind := by
  constructor
  · intro found
    unfold selectorName? at found
    dsimp only at found
    split at found
    next => cases found
    next some =>
      split at found
      next opens =>
        cases found
        refine ⟨text.dropWhile isSelectorChar, List.takeWhile_append_dropWhile.symm, ?_, ?_, ?_, ?_⟩
        · intro none
          exact some (List.isEmpty_iff.2 none)
        · exact fun c => List.mem_takeWhile_imp
        · exact head?_dropWhile_eq_false isSelectorChar text
        · obtain ⟨after, same⟩ := List.head?_eq_some_iff.1 opens
          refine ⟨(text.dropWhile isSelectorChar).takeWhile Unicode.isBlank, after, ?_, ?_⟩
          · rw [← same, List.takeWhile_append_dropWhile]
          · exact fun c => List.mem_takeWhile_imp
      next => cases found
  · intro holds
    obtain ⟨behind, whole, heads⟩ := holds
    obtain ⟨gap, after, parted, blank⟩ := heads.block
    obtain ⟨taken, dropped⟩ := takeWhile_dropWhile_append heads.word
      fun c is => heads.longest c (Option.mem_def.2 is)
    have stops : ∀ c, ('\x7b' :: after).head? = some c → Unicode.isBlank c = false := by
      intro c is
      cases is
      rfl
    obtain ⟨-, opens⟩ := takeWhile_dropWhile_append blank stops
    unfold selectorName?
    dsimp only
    rw [whole, taken, dropped, if_neg (mt List.isEmpty_iff.1 heads.nonempty), parted, opens]
    rfl

section Definitions

variable {offset start : Nat} {text rest : List Char} {c : Char} {binding : Binding}

/-- Nothing is defined in an empty text. -/
theorem not_definedAt_nil : ¬ DefinedAt offset [] start binding := by
  intro holds
  obtain ⟨sigil, category, name, _, ⟨before, behind, whole, _, _⟩, _⟩ := holds
  simp at whole

/-- What a text defines is what its first character introduces and what the rest defines. -/
theorem definedAt_cons_iff :
    DefinedAt offset (c :: rest) start binding ↔
      (start = offset ∧ ∃ category name, sigilCategory? c = some category ∧
          selectorName? rest = some name ∧
          binding =
            { name := String.ofList name
              category
              position := offset + c.utf8Size + width name }) ∨
        DefinedAt (offset + c.utf8Size) rest start binding := by
  simp only [sigilCategory?_eq_some_iff, selectorName?_eq_some_iff]
  constructor
  · intro holds
    obtain ⟨sigil, category, name, known, ⟨before, behind, whole, place, heads⟩, is⟩ := holds
    cases before with
    | nil =>
      cases whole
      cases place
      refine .inl ⟨rfl, category, name, known, ⟨behind, rfl, heads⟩, ?_⟩
      rw [is, known.utf8Size_eq]
      rfl
    | cons d before =>
      cases whole
      refine .inr ⟨sigil, category, name, known, ⟨before, behind, rfl, ?_, heads⟩, is⟩
      rw [← place, width_cons, Nat.add_assoc]
  · intro defined
    rcases defined with ⟨rfl, category, name, known, ⟨behind, whole, heads⟩, is⟩ | later
    · rw [known.utf8Size_eq] at is
      exact ⟨c, category, name, known, ⟨[], behind, by rw [whole]; rfl, rfl, heads⟩, is⟩
    · obtain ⟨sigil, category, name, known, ⟨before, behind, whole, place, heads⟩, is⟩ := later
      refine ⟨sigil, category, name, known,
        ⟨c :: before, behind, by rw [whole]; rfl, ?_, heads⟩, is⟩
      rw [← place, width_cons, Nat.add_assoc]

/-- A character that is no sigil defines nothing, so that only the rest counts. -/
theorem definedAt_cons_of_plain (plain : sigilCategory? c = none) :
    DefinedAt offset (c :: rest) start binding ↔
      DefinedAt (offset + c.utf8Size) rest start binding := by
  rw [definedAt_cons_iff, plain]
  simp

/-- What a text defines stands behind its start. -/
theorem le_of_definedAt (defined : DefinedAt offset text start binding) : offset ≤ start := by
  obtain ⟨sigil, category, name, -, ⟨before, behind, -, place, -⟩, -⟩ := defined
  omega

end Definitions

/-- The comments in what is left of a style, with the one that a scan is in. That one starts at byte
`opened`. -/
def hidden (opened offset : Nat) : Place → List Char → List Span
  | .rules, text => comments offset text
  | .comment, text => commentFrom opened offset text

/-- A text that does not start with two characters does not have them in front. -/
theorem isPrefixOf_pair {first second c : Char} {rest : List Char}
    (other : ∀ after, c = first → rest = second :: after → False) :
    [first, second].isPrefixOf (c :: rest) = false := by
  by_contra starts
  rw [Bool.not_eq_false, List.isPrefixOf_iff_prefix] at starts
  obtain ⟨after, whole⟩ := starts
  cases whole
  exact other after rfl rfl

/-- In the rules, a selector at the first character is in no comment. -/
theorem exists_definedAt_cons_iff {offset : Nat} {c : Char} {rest : List Char} {binding : Binding}
    (other : ['/', '*'].isPrefixOf (c :: rest) = false) :
    (∃ start, ¬ Inside (comments offset (c :: rest)) start ∧
        DefinedAt offset (c :: rest) start binding) ↔
      (∃ category name, sigilCategory? c = some category ∧ selectorName? rest = some name ∧
          binding =
            { name := String.ofList name
              category
              position := offset + c.utf8Size + width name }) ∨
        ∃ start, ¬ Inside (comments (offset + c.utf8Size) rest) start ∧
          DefinedAt (offset + c.utf8Size) rest start binding := by
  rw [comments_cons other]
  constructor
  · intro holds
    obtain ⟨start, outside, defined⟩ := holds
    rcases definedAt_cons_iff.1 defined with ⟨rfl, here⟩ | later
    · exact .inl here
    · exact .inr ⟨start, outside, later⟩
  · intro defined
    rcases defined with here | ⟨start, outside, later⟩
    · refine ⟨offset, not_inside_of_lt ?_, definedAt_cons_iff.2 (.inl ⟨rfl, here⟩)⟩
      exact Nat.lt_add_of_pos_right c.utf8Size_pos
    · exact ⟨start, outside, definedAt_cons_iff.2 (.inr later)⟩

/-- A scan finds what the selectors outside of comments define. -/
theorem mem_scan_iff {opened offset : Nat} {place : Place} {text : List Char} {binding : Binding}
    (opened_le : opened ≤ offset) :
    binding ∈ scan offset place text ↔
      ∃ start, ¬ Inside (hidden opened offset place text) start ∧
        DefinedAt offset text start binding := by
  -- A comment that the scan is in stays the same, and the next one starts where it is opened.
  fun_induction scan offset place text generalizing opened with
  | case1 offset place =>
    refine iff_of_false List.not_mem_nil ?_
    intro holds
    obtain ⟨start, _, defined⟩ := holds
    exact not_definedAt_nil defined
  | case2 offset rest ih =>
    have behind := ih (Nat.le_refl (offset + 2))
    rw [behind]
    apply exists_congr
    intro start
    rw [hidden, hidden, commentFrom_close, inside_cons_iff, definedAt_cons_of_plain rfl,
      definedAt_cons_of_plain rfl]
    constructor
    · intro holds
      obtain ⟨outside, defined⟩ := holds
      have := le_of_definedAt defined
      refine ⟨?_, defined⟩
      intro inside
      rcases inside with ⟨-, before⟩ | inside
      · dsimp only at before
        omega
      · exact outside inside
    · intro holds
      obtain ⟨outside, defined⟩ := holds
      exact ⟨fun inside => outside (.inr inside), defined⟩
  | case3 offset c rest other ih =>
    have behind := ih (Nat.le_add_right_of_le opened_le)
    rw [behind]
    apply exists_congr
    intro start
    have goes : commentFrom opened offset (c :: rest) =
        commentFrom opened (offset + c.utf8Size) rest :=
      commentFrom_cons (isPrefixOf_pair other)
    rw [hidden, hidden, goes, definedAt_cons_iff]
    constructor
    · intro holds
      obtain ⟨outside, defined⟩ := holds
      exact ⟨outside, .inr defined⟩
    · intro holds
      obtain ⟨outside, defined⟩ := holds
      rcases defined with ⟨rfl, _⟩ | later
      -- A selector may stand here, but the comment holds its sign.
      · refine absurd (inside_commentFrom opened_le ?_) outside
        exact Nat.lt_add_of_pos_right c.utf8Size_pos
      · exact ⟨outside, later⟩
  | case4 offset rest ih =>
    have behind := ih (Nat.le_add_right offset 2)
    rw [behind]
    apply exists_congr
    intro start
    rw [hidden, hidden, comments_open, definedAt_cons_of_plain rfl, definedAt_cons_of_plain rfl]
    rfl
  | case5 offset c rest other later category name found sigil =>
    rename_i ih
    have behind := ih (Nat.le_refl (offset + c.utf8Size))
    rw [hidden, exists_definedAt_cons_iff (isPrefixOf_pair other), List.mem_cons, behind, sigil,
      found]
    refine or_congr ?_ Iff.rfl
    constructor
    · intro is
      exact ⟨category, name, rfl, rfl, is⟩
    · intro holds
      obtain ⟨category', name', same, same', is⟩ := holds
      cases same
      cases same'
      exact is
  | case6 offset c rest other later none =>
    rename_i ih
    have behind := ih (Nat.le_refl (offset + c.utf8Size))
    rw [hidden, exists_definedAt_cons_iff (isPrefixOf_pair other), behind]
    refine (or_iff_right ?_).symm
    intro holds
    obtain ⟨category, name, sigil, found, _⟩ := holds
    exact none category name sigil found

/-- Where the sign in front of a name stands. -/
def selectorStart (binding : Binding) : Nat := binding.position - 1 - width binding.name.toList

/-- The start of a selector is told by its binding. -/
theorem DefinedAt.selectorStart_eq {offset start : Nat} {text : List Char} {binding : Binding}
    (defined : DefinedAt offset text start binding) : selectorStart binding = start := by
  obtain ⟨sigil, category, name, -, -, rfl⟩ := defined
  rw [selectorStart, String.toList_ofList]
  dsimp only
  omega

/-- The selectors of the scan start one behind the other. -/
theorem scan_pairwise_selectorStart (offset : Nat) (place : Place) (text : List Char) :
    (scan offset place text).Pairwise fun first second =>
      selectorStart first < selectorStart second := by
  fun_induction scan offset place text with
  | case1 => exact .nil
  | case2 offset rest ih => exact ih
  | case3 offset c rest _ ih => exact ih
  | case4 offset rest ih => exact ih
  | case5 offset c rest _ later category name found sigil ih =>
    refine List.pairwise_cons.2 ⟨?_, ih⟩
    intro binding member
    have here : DefinedAt offset (c :: rest) offset _ :=
      definedAt_cons_iff.2 (.inl ⟨rfl, category, name, sigil, found, rfl⟩)
    obtain ⟨start, -, defined⟩ := (mem_scan_iff (Nat.le_refl (offset + c.utf8Size))).1 member
    have positive := c.utf8Size_pos
    have := le_of_definedAt defined
    rw [here.selectorStart_eq, defined.selectorStart_eq]
    omega
  | case6 offset c rest _ later _ ih => exact ih

/-- Whether a character introduces a name. -/
def isSigil (c : Char) : Bool := c = '#' || c = '.'

/-- A selector directly before a rule's block. -/
def selector : List Piece :=
  [.one isSigil, .one isSelectorChar, .many isSelectorChar, .many Unicode.isBlank,
    .one fun c => c = '\x7b']

/-- The name that a match of the pattern defines. -/
def selected? (start : Nat) : List (List Char) → Option Binding
  | [[sigil], first, more, _, _] =>
    (sigilCategory? sigil).map fun category =>
      { name := String.ofList (first ++ more)
        category
        position := start + 1 + width (first ++ more) }
  | _ => none

instance (ranges : List Span) : DecidablePred (Inside ranges) := fun place =>
  inferInstanceAs (Decidable (∃ range ∈ ranges, range.start ≤ place ∧ place < range.stop))

/-- The names of the matches that start outside of comments. -/
def matched (text : List Char) : List Binding :=
  (occurrences selector 0 0 text).filterMap fun found =>
    if Inside (comments 0 text) found.1 then none else selected? found.1 found.2

/-- No blank is part of a selector. -/
theorem isSelectorChar_of_isBlank {c : Char} (blank : Unicode.isBlank c = true) :
    isSelectorChar c = false := by
  have other : c ≠ '-' := by
    rintro rfl
    cases blank
  rw [isSelectorChar, Unicode.isWordLike_of_isBlank blank, decide_eq_false other]
  rfl

/-- The name of a selector ends at blanks and a brace. -/
theorem isSelectorChar_head? {gap rest : List Char} (blank : ∀ c ∈ gap, Unicode.isBlank c = true) :
    ∀ c ∈ (gap ++ '\x7b' :: rest).head?, isSelectorChar c = false := by
  intro c is
  cases gap with
  | nil =>
    cases is
    decide
  | cons d gap =>
    cases is
    exact isSelectorChar_of_isBlank (blank c List.mem_cons_self)

/-- A match of the selector pattern is a sigil, a name, blanks and a brace. -/
theorem matchesAs_selector {text rest : List Char} {parts : List (List Char)}
    (known : MatchesAs selector text parts rest) :
    ∃ sigil name more gap, parts = [[sigil], [name], more, gap, ['\x7b']] ∧
      text = sigil :: (name :: more ++ (gap ++ '\x7b' :: rest)) ∧
      (∀ c ∈ name :: more, isSelectorChar c = true) ∧ ∀ c ∈ gap, Unicode.isBlank c = true := by
  obtain ⟨whole, all⟩ := known
  simp only [selector, List.forall₂_cons_left_iff, List.forall₂_nil_left_iff, Piece.Accepts] at all
  obtain ⟨_, _, ⟨sigil, rfl, -⟩, ⟨_, _, ⟨first, rfl, starts⟩, ⟨more, _, word, ⟨gap, _, blank,
    ⟨_, _, ⟨brace, rfl, opens⟩, rfl, rfl⟩, rfl⟩, rfl⟩, rfl⟩, rfl⟩ := all
  rw [decide_eq_true_iff] at opens
  subst opens
  refine ⟨sigil, first, more, gap, rfl, ?_, ?_, blank⟩
  · simpa using whole
  · intro c member
    rcases List.mem_cons.1 member with rfl | member
    · exact starts
    · exact word c member

/-- The pattern matches where a name is defined. -/
theorem matchAt_selector_iff {text : List Char} {start : Nat} {binding : Binding} :
    (∃ parts, MatchAt selector text start parts ∧ selected? start parts = some binding) ↔
      DefinedAt 0 text start binding := by
  constructor
  · intro holds
    obtain ⟨parts, ⟨before, after, rest, whole, _, place, found⟩, named⟩ := holds
    obtain ⟨sigil, first, more, gap, rfl, split, word, blank⟩ :=
      matchesAs_selector (matchesAs_of_firstMatch? found)
    obtain ⟨category, known, rfl⟩ := Option.map_eq_some_iff.1 named
    refine ⟨sigil, category, first :: more, sigilCategory?_eq_some_iff.1 known,
      ⟨before, gap ++ '\x7b' :: rest, by rw [whole, split], by rw [Nat.zero_add, place], ?_⟩, rfl⟩
    refine ⟨List.cons_ne_nil _ _, word, ?_, gap, rest, rfl, blank⟩
    exact isSelectorChar_head? blank
  · intro holds
    obtain ⟨sigil, category, name, known, ⟨before, behind, whole, place, heads⟩, is⟩ := holds
    obtain ⟨gap, after, rfl, blank⟩ := heads.block
    obtain ⟨first, more, rfl⟩ := List.exists_cons_of_ne_nil heads.nonempty
    have word := List.forall_mem_cons.1 heads.word
    have sign : isSigil sigil = true := by
      cases known with
      | dot => rfl
      | hash => rfl
    have brace : ∀ c ∈ ('\x7b' :: after).head?, Unicode.isBlank c = false := by
      intro c is
      cases is
      rfl
    have found : firstMatch? selector (sigil :: first :: (more ++ (gap ++ '\x7b' :: after))) =
        some ([[sigil], [first], more, gap, ['\x7b']], after) := by
      apply firstMatch?_one sign
      apply firstMatch?_one word.1
      apply firstMatch?_many word.2 heads.longest
      apply firstMatch?_many blank brace
      apply firstMatch?_one rfl
      rfl
    refine ⟨_, ⟨before, _, after, whole, List.cons_ne_nil _ _, ?_, found⟩, ?_⟩
    · rw [← place, Nat.zero_add]
    · rw [selected?, sigilCategory?_eq_some_iff.2 known, is]
      rfl

/-- A sign is in no class of characters that leaves the signs out. -/
theorem isSigil_eq_false {test : Char → Bool} {c : Char} (hash : test '#' = false)
    (dot : test '.' = false) (passes : test c = true) : isSigil c = false := by
  have away : ∀ sign, test sign = false → c ≠ sign := by
    intro sign fails same
    rw [← same, passes] at fails
    cases fails
  rw [isSigil, decide_eq_false (away '#' hash), decide_eq_false (away '.' dot)]
  rfl

/-- Behind its sign a selector has no sign, so that no selector starts inside another one. -/
theorem selector_apart : Apart selector := by
  intro text parts rest found count positive inside
  obtain ⟨sigil, first, more, gap, rfl, split, word, blank⟩ :=
    matchesAs_selector (matchesAs_of_firstMatch? found)
  have plain : ∀ c ∈ first :: more ++ (gap ++ ['\x7b']), isSigil c = false := by
    intro c member
    rcases List.mem_append.1 member with member | member
    · exact isSigil_eq_false (by decide) (by decide) (word c member)
    · rcases List.mem_append.1 member with member | member
      · exact isSigil_eq_false rfl rfl (blank c member)
      · rw [List.mem_singleton.1 member]
        rfl
  obtain ⟨place, rfl⟩ := Nat.exists_eq_add_of_lt positive
  have whole : text = sigil :: (first :: more ++ (gap ++ ['\x7b']) ++ rest) := by
    rw [split]
    simp
  apply firstMatch?_one_eq_none
  intro c is
  rw [whole, Nat.zero_add, List.drop_succ_cons, List.head?_drop,
    List.getElem?_append_left (by simpa using inside)] at is
  exact plain c (List.mem_of_getElem? is)

/-- The matches of the pattern are the definitions outside comments. -/
theorem mem_matched_iff {text : List Char} {binding : Binding} :
    binding ∈ matched text ↔
      ∃ start, ¬ Inside (comments 0 text) start ∧ DefinedAt 0 text start binding := by
  simp only [matched, List.mem_filterMap, ← matchAt_selector_iff]
  constructor
  · intro holds
    obtain ⟨⟨start, parts⟩, member, named⟩ := holds
    obtain ⟨_, place, found⟩ := (mem_occurrences_iff selector_apart (by simp)).1 member
    rw [Nat.zero_add] at place
    subst place
    split at named
    next => cases named
    next outside => exact ⟨start, outside, parts, found, named⟩
  · intro holds
    obtain ⟨start, outside, parts, found, named⟩ := holds
    refine ⟨(start, parts), (mem_occurrences_iff selector_apart (by simp)).2 ?_, ?_⟩
    · exact ⟨start, (Nat.zero_add start).symm, found⟩
    · rw [if_neg outside, named]

/-- A match is the selector that starts where the match does. -/
theorem selectorStart_of_selected? {start : Nat} {parts : List (List Char)} {binding : Binding}
    (named : selected? start parts = some binding) : selectorStart binding = start := by
  unfold selected? at named
  split at named
  next sigil first more gap brace =>
    obtain ⟨category, -, rfl⟩ := Option.map_eq_some_iff.1 named
    rw [selectorStart, String.toList_ofList]
    dsimp only
    omega
  next => cases named

/-- The matches start one behind the other. -/
theorem matched_pairwise (text : List Char) :
    (matched text).Pairwise fun first second => selectorStart first < selectorStart second := by
  have start_eq : ∀ {found : Nat × List (List Char)} {binding : Binding},
      (if Inside (comments 0 text) found.1 then none else selected? found.1 found.2) =
        some binding → selectorStart binding = found.1 := by
    intro found binding named
    split at named
    next => cases named
    next => exact selectorStart_of_selected? named
  apply (occurrences_pairwise selector 0 0 text).filterMap
  intro first second before binding named other named'
  rw [start_eq named, start_eq named']
  exact before

/-- The scan finds the names of the matches. -/
theorem bindings_eq_matched (text : List Char) : bindings text = matched text := by
  have ordered := scan_pairwise_selectorStart 0 .rules text
  have ordered' := matched_pairwise text
  have distinct : ∀ {list : List Binding},
      list.Pairwise (fun first second => selectorStart first < selectorStart second) →
        list.Nodup := by
    intro list increasing
    apply increasing.imp
    intro first second before same
    rw [same] at before
    exact Nat.lt_irrefl _ before
  have perm : (bindings text).Perm (matched text) := by
    apply (List.perm_ext_iff_of_nodup (distinct ordered) (distinct ordered')).2
    intro binding
    rw [mem_matched_iff]
    exact mem_scan_iff (Nat.le_refl 0)
  apply perm.eq_of_pairwise _ ordered ordered'
  intro first second _ _ before behind
  exact absurd before (Nat.lt_asymm behind)

/-- The bindings of a style are the definitions outside comments. -/
theorem mem_bindings_iff {text : List Char} {binding : Binding} :
    binding ∈ bindings text ↔
      ∃ start, ¬ Inside (comments 0 text) start ∧ DefinedAt 0 text start binding :=
  mem_scan_iff (Nat.le_refl 0)

/-- Something is defined where a class or an identifier is selected. -/
theorem exists_definedAt_iff {text : List Char} {start : Nat} :
    (∃ binding, DefinedAt 0 text start binding) ↔
      ∃ sigil name, (sigil = '.' ∨ sigil = '#') ∧ SelectorAt 0 text start sigil name := by
  constructor
  · intro holds
    obtain ⟨binding, sigil, category, name, known, stands, _⟩ := holds
    refine ⟨sigil, name, ?_, stands⟩
    cases known with
    | dot => exact .inl rfl
    | hash => exact .inr rfl
  · intro holds
    obtain ⟨sigil, name, sign, stands⟩ := holds
    rcases sign with rfl | rfl
    · exact ⟨_, '.', .styleClass, name, .dot, stands, rfl⟩
    · exact ⟨_, '#', .styleId, name, .hash, stands, rfl⟩

/-- A style has one name for each selector outside of its comments, in the order of the selectors,
and no other names. They are those of the matches of the pattern `selector` in the whole style that
start outside of comments. -/
theorem bindings_exact (text : List Char) :
    (∃ starts : List Nat, starts.Pairwise (· < ·) ∧
      (∀ start, start ∈ starts ↔ ¬ Inside (comments 0 text) start ∧
        ∃ sigil name, (sigil = '.' ∨ sigil = '#') ∧ SelectorAt 0 text start sigil name) ∧
      List.Forall₂ (DefinedAt 0 text) starts (bindings text)) ∧
    (∀ binding, binding ∈ bindings text ↔
      ∃ start, ¬ Inside (comments 0 text) start ∧ DefinedAt 0 text start binding) ∧
    (bindings text).Pairwise (fun first second => first.position < second.position) ∧
    bindings text = matched text := by
  refine ⟨⟨(bindings text).map selectorStart, ?_, ?_, ?_⟩, fun _ => mem_bindings_iff,
    scan_pairwise 0 .rules text, bindings_eq_matched text⟩
  · exact List.pairwise_map.2 (scan_pairwise_selectorStart 0 .rules text)
  · intro start
    rw [← exists_definedAt_iff, List.mem_map]
    constructor
    · intro holds
      obtain ⟨binding, member, start_eq⟩ := holds
      obtain ⟨place, outside, defined⟩ := mem_bindings_iff.1 member
      rw [← start_eq, defined.selectorStart_eq]
      exact ⟨outside, binding, defined⟩
    · intro holds
      obtain ⟨outside, binding, defined⟩ := holds
      exact ⟨binding, mem_bindings_iff.2 ⟨start, outside, defined⟩, defined.selectorStart_eq⟩
  · rw [List.forall₂_map_left_iff, List.forall₂_same]
    intro binding member
    obtain ⟨place, -, defined⟩ := mem_bindings_iff.1 member
    rw [defined.selectorStart_eq]
    exact defined

example :
    (bindings "/*.a \x7b*/.b-ö\u2003\x7b #c.d\x7b\x7d/*#e\x7b".toList).map
      (fun binding => (binding.name, binding.position)) = [("b-ö", 13), ("d", 22)] := by
  decide +kernel

end SfcIndex.Style
