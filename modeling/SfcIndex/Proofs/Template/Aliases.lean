import Mathlib.Data.List.TakeWhile
import SfcIndex.Proofs.Text.Words
import SfcIndex.Template

/-! # Identifiers and the aliases of loops

`IdentifierAt` and `LoopAliases` say what the identifiers of a text and the aliases of a `v-for`
value are, without the scans that find them. The scans find the same
(`Template.mem_identifiers_iff`, `Template.loopAliases_eq`, `Template.loopAliases_spec`).
-/

namespace SfcIndex.Template

open Text

/-- An identifier stands in the text at a byte offset: a maximal run of word characters that does
not start with a digit. -/
def IdentifierAt (text : List Char) (offset : Nat) (name : List Char) : Prop :=
  WordRun text offset name ∧ ∀ c ∈ name.head?, c.isDigit = false

/-- The runs that are found are the words of the text. -/
theorem mem_wordRuns_iff {offset : Nat} {text : List Char} {place : Nat × List Char} :
    place ∈ wordRuns offset text ↔
      ∃ start, place.1 = offset + start ∧ WordRun text start place.2 := by
  fun_induction wordRuns offset text with
  | case1 => simp [WordRun.not_nil]
  | case2 offset c rest word run ih =>
    have whole : c :: rest = run ++ rest.dropWhile isWordChar :=
      congrArg (c :: ·) List.takeWhile_append_dropWhile.symm
    have words : ∀ d ∈ run, isWordChar d = true := by
      intro d member
      rcases List.mem_cons.1 member with rfl | later
      · exact word
      · exact List.mem_takeWhile_imp later
    have nonempty : run ≠ [] := List.cons_ne_nil _ _
    rw [whole, List.mem_cons, ih]
    simp only [WordRun.append_iff nonempty words (head?_dropWhile_eq_false _ _)]
    constructor
    · rintro (rfl | ⟨start, place_eq, found⟩)
      · exact ⟨0, rfl, .inl ⟨rfl, rfl⟩⟩
      · exact ⟨width run + start, by omega, .inr ⟨start, rfl, found⟩⟩
    · rintro ⟨start, place_eq, ⟨rfl, same⟩ | ⟨more, rfl, found⟩⟩
      · exact .inl (Prod.ext place_eq same)
      · exact .inr ⟨more, by omega, found⟩
  | case3 offset c rest other ih =>
    rw [ih]
    simp only [WordRun.cons_iff ((Bool.not_eq_true _).mp other)]
    constructor
    · rintro ⟨start, place_eq, found⟩
      exact ⟨c.utf8Size + start, by omega, start, rfl, found⟩
    · rintro ⟨_, place_eq, start, rfl, found⟩
      exact ⟨start, by omega, found⟩

/-- Words are found from the left to the right. -/
theorem wordRuns_pairwise (offset : Nat) (text : List Char) :
    (wordRuns offset text).Pairwise fun first second => first.1 < second.1 := by
  fun_induction wordRuns offset text with
  | case1 => exact .nil
  | case2 offset c rest word run ih =>
    refine List.pairwise_cons.2 ⟨?_, ih⟩
    intro place later
    obtain ⟨start, place_eq, -⟩ := mem_wordRuns_iff.1 later
    have positive := c.utf8Size_pos
    have size : width run = c.utf8Size + width (rest.takeWhile isWordChar) := rfl
    dsimp only
    omega
  | case3 offset c rest other ih => exact ih

/-- The identifiers that are found are those of the specification. -/
theorem mem_identifiers_iff {text : List Char} {place : Nat × List Char} :
    place ∈ identifiers text ↔ IdentifierAt text place.1 place.2 := by
  have digit : isIdentifier place.2 = true ↔ ∀ c ∈ place.2.head?, c.isDigit = false := by
    unfold isIdentifier
    cases place.2.head? <;> simp
  rw [identifiers, List.mem_filter, mem_wordRuns_iff, digit, IdentifierAt]
  simp

/-- Identifiers are found from the left to the right. -/
theorem identifiers_pairwise (text : List Char) :
    (identifiers text).Pairwise fun first second => first.1 < second.1 :=
  (wordRuns_pairwise 0 text).filter _

/-- After the given start of a text come blanks, the word `in` or `of`, and a blank. -/
def KeywordAfter (text before : List Char) : Prop :=
  ∃ gap word blank rest, text = before ++ (gap ++ (word ++ blank :: rest)) ∧
    gap ≠ [] ∧ (∀ c ∈ gap, Unicode.isBlank c = true) ∧
    (word = "in".toList ∨ word = "of".toList) ∧ Unicode.isBlank blank = true

/-- The part of a `v-for` value that names its aliases, at a byte offset in the value: what comes
before the first `in` or `of` with blanks around it, without the blanks in front, or what comes
before the first space when there is no such word. -/
inductive LoopAliases (value : List Char) : Nat → List Char → Prop
  | beforeKeyword {lead body aliases : List Char} (whole : value = lead ++ body)
      (blank : ∀ c ∈ lead, Unicode.isBlank c = true)
      (solid : ∀ c ∈ body.head?, Unicode.isBlank c = false)
      (keyword : KeywordAfter body aliases)
      (first : ∀ shorter, KeywordAfter body shorter → aliases.length ≤ shorter.length) :
      LoopAliases value (width lead) aliases
  | withoutKeyword (none : ∀ before, ¬ KeywordAfter value before) :
      LoopAliases value 0 (value.takeWhile (· ≠ ' '))

/-- A text starts with a keyword when `in` or `of` and a blank come first. -/
theorem startsWithKeyword_iff {text : List Char} :
    startsWithKeyword text = true ↔
      ∃ word blank rest, text = word ++ blank :: rest ∧
        (word = "in".toList ∨ word = "of".toList) ∧ Unicode.isBlank blank = true := by
  constructor
  · intro starts
    obtain ⟨after, found, head⟩ := (Option.any_eq_true _ _).1 starts
    obtain ⟨blank, is, blanks⟩ := (Option.any_eq_true _ _).1 head
    obtain ⟨rest, rfl⟩ := List.head?_eq_some_iff.1 is
    unfold afterKeyword? at found
    split at found
    · cases found
      exact ⟨"in".toList, blank, rest, rfl, .inl rfl, blanks⟩
    · cases found
      exact ⟨"of".toList, blank, rest, rfl, .inr rfl, blanks⟩
    · cases found
  · rintro ⟨word, blank, rest, rfl, rfl | rfl, blanks⟩
    · exact blanks
    · exact blanks

section Keyword

variable {c : Char} {rest before : List Char}

/-- A keyword comes at once when a blank and then the keyword come next. -/
theorem keywordAfter_nil_iff :
    KeywordAfter (c :: rest) [] ↔
      Unicode.isBlank c = true ∧ startsWithKeyword (rest.dropWhile Unicode.isBlank) = true := by
  rw [startsWithKeyword_iff]
  constructor
  · rintro ⟨gap, word, blank, after, whole, some, blanks, keyword, ends⟩
    obtain ⟨first, more, rfl⟩ := List.exists_cons_of_ne_nil some
    cases whole
    refine ⟨blanks c List.mem_cons_self, word, blank, after, ?_, keyword, ends⟩
    refine (takeWhile_dropWhile_append (fun d member => blanks d (List.mem_cons_of_mem _ member))
      ?_).2
    rcases keyword with rfl | rfl
    · rintro d ⟨⟩
      decide
    · rintro d ⟨⟩
      decide
  · rintro ⟨starts, word, blank, after, whole, keyword, ends⟩
    refine ⟨c :: rest.takeWhile Unicode.isBlank, word, blank, after, ?_, List.cons_ne_nil _ _, ?_,
      keyword, ends⟩
    · rw [← whole, List.nil_append, List.cons_append, List.takeWhile_append_dropWhile]
    · intro d member
      rcases List.mem_cons.1 member with rfl | later
      · exact starts
      · exact List.mem_takeWhile_imp later

/-- A keyword comes after a character when it comes after the rest of what is before it. -/
theorem keywordAfter_cons_iff {d : Char} :
    KeywordAfter (c :: rest) (d :: before) ↔ c = d ∧ KeywordAfter rest before := by
  constructor
  · rintro ⟨gap, word, blank, after, whole, others⟩
    cases whole
    exact ⟨rfl, gap, word, blank, after, rfl, others⟩
  · rintro ⟨rfl, gap, word, blank, after, rfl, others⟩
    exact ⟨gap, word, blank, after, rfl, others⟩

theorem not_keywordAfter_nil : ¬ KeywordAfter [] before := by
  rintro ⟨gap, word, blank, after, whole, -⟩
  simp at whole

/-- A keyword still comes after what was before it when more stands in front. -/
theorem KeywordAfter.append {body : List Char} (found : KeywordAfter body before)
    (lead : List Char) :
    KeywordAfter (lead ++ body) (lead ++ before) := by
  obtain ⟨gap, word, blank, after, rfl, others⟩ := found
  exact ⟨gap, word, blank, after, by simp, others⟩

end Keyword

/-- The search for a keyword stops at the first place where one comes. -/
theorem beforeKeyword?_cons (c : Char) (rest : List Char)
    [Decidable (KeywordAfter (c :: rest) [])] :
    beforeKeyword? (c :: rest) =
      if KeywordAfter (c :: rest) [] then some [] else (beforeKeyword? rest).map (c :: ·) := by
  rw [beforeKeyword?]
  simp only [keywordAfter_nil_iff, Bool.and_eq_true]

/-- Scanning for a keyword stops at the first one. -/
theorem beforeKeyword?_eq_some_iff {text before : List Char} :
    beforeKeyword? text = some before ↔
      KeywordAfter text before ∧
        ∀ shorter, KeywordAfter text shorter → before.length ≤ shorter.length := by
  classical
  induction text generalizing before with
  | nil => simp [beforeKeyword?, not_keywordAfter_nil]
  | cons c rest ih =>
    rw [beforeKeyword?_cons]
    by_cases here : KeywordAfter (c :: rest) []
    · rw [if_pos here, Option.some.injEq]
      constructor
      · rintro rfl
        exact ⟨here, fun _ _ => Nat.zero_le _⟩
      · rintro ⟨-, first⟩
        exact (List.length_eq_zero_iff.1 (Nat.le_zero.1 (first [] here))).symm
    · rw [if_neg here, Option.map_eq_some_iff]
      constructor
      · rintro ⟨lead, found, rfl⟩
        obtain ⟨after, first⟩ := ih.1 found
        refine ⟨keywordAfter_cons_iff.2 ⟨rfl, after⟩, ?_⟩
        intro shorter found'
        cases shorter with
        | nil => exact absurd found' here
        | cons d shorter => exact Nat.succ_le_succ (first _ (keywordAfter_cons_iff.1 found').2)
      · rintro ⟨after, first⟩
        cases before with
        | nil => exact absurd after here
        | cons d lead =>
          obtain ⟨rfl, behind⟩ := keywordAfter_cons_iff.1 after
          refine ⟨lead, ih.2 ⟨behind, ?_⟩, rfl⟩
          intro shorter found'
          have longer := first (c :: shorter) (keywordAfter_cons_iff.2 ⟨rfl, found'⟩)
          exact Nat.le_of_succ_le_succ longer

/-- The search finds nothing when there is no keyword. -/
theorem beforeKeyword?_eq_none_iff {text : List Char} :
    beforeKeyword? text = none ↔ ∀ before, ¬ KeywordAfter text before := by
  classical
  induction text with
  | nil => simp [beforeKeyword?, not_keywordAfter_nil]
  | cons c rest ih =>
    rw [beforeKeyword?_cons]
    by_cases here : KeywordAfter (c :: rest) []
    · rw [if_pos here]
      exact iff_of_false (by simp) fun none => none [] here
    · rw [if_neg here, Option.map_eq_none_iff, ih]
      constructor
      · intro none before found
        cases before with
        | nil => exact here found
        | cons d lead => exact none lead (keywordAfter_cons_iff.1 found).2
      · intro none before found
        exact none (c :: before) (keywordAfter_cons_iff.2 ⟨rfl, found⟩)

/-- A keyword behind leading blanks comes right after them or is one of what they lead to. -/
theorem keywordAfter_append_cases {lead body before : List Char}
    (blank : ∀ c ∈ lead, Unicode.isBlank c = true)
    (solid : ∀ c ∈ body.head?, Unicode.isBlank c = false)
    (found : KeywordAfter (lead ++ body) before) :
    (∃ more, KeywordAfter body more) ∨ (lead ≠ [] ∧ startsWithKeyword body = true) := by
  induction lead generalizing before with
  | nil => exact .inl ⟨before, found⟩
  | cons c lead ih =>
    have blanks : ∀ d ∈ lead, Unicode.isBlank d = true :=
      fun d member => blank d (List.mem_cons_of_mem _ member)
    cases before with
    | nil =>
      have starts := (keywordAfter_nil_iff.1 found).2
      obtain ⟨-, dropped⟩ :=
        takeWhile_dropWhile_append blanks fun d is => solid d (Option.mem_def.2 is)
      rw [List.append_eq, dropped] at starts
      exact .inr ⟨List.cons_ne_nil _ _, starts⟩
    | cons d before =>
      exact (ih blanks (keywordAfter_cons_iff.1 found).2).imp_right
        fun known => ⟨List.cons_ne_nil _ _, known.2⟩

section Value

variable {value aliases : List Char} {skipped : Nat}

/-- The aliases of a loop are found. -/
theorem loopAliases_eq (is : LoopAliases value skipped aliases) :
    loopAliases value = (skipped, aliases) := by
  cases is with
  | @beforeKeyword lead body _ whole blank solid keyword first =>
    obtain ⟨taken, dropped⟩ :=
      takeWhile_dropWhile_append blank fun c is => solid c (Option.mem_def.2 is)
    rw [← whole] at taken dropped
    unfold loopAliases
    dsimp only
    rw [taken, dropped, beforeKeyword?_eq_some_iff.2 ⟨keyword, first⟩]
  | withoutKeyword none =>
    have whole := List.takeWhile_append_dropWhile (p := Unicode.isBlank) (l := value)
    have missing : beforeKeyword? (value.dropWhile Unicode.isBlank) = .none := by
      rw [beforeKeyword?_eq_none_iff]
      intro before found
      have behind := found.append (value.takeWhile Unicode.isBlank)
      rw [whole] at behind
      exact none _ behind
    have away : ¬ ((!(value.takeWhile Unicode.isBlank).isEmpty &&
        startsWithKeyword (value.dropWhile Unicode.isBlank)) = true) := by
      rw [Bool.and_eq_true, Bool.not_eq_true', List.isEmpty_eq_false_iff, startsWithKeyword_iff]
      rintro ⟨some, word, blank, rest, starts, keyword, ends⟩
      refine none [] ⟨_, word, blank, rest, ?_, some, ?_, keyword, ends⟩
      · rw [← starts, List.nil_append, whole]
      · exact fun c => List.mem_takeWhile_imp
    unfold loopAliases
    dsimp only
    rw [missing, if_neg away]

/-- What is found are the aliases of a loop, unless it is empty. -/
theorem loopAliases_spec (some : (loopAliases value).2 ≠ []) :
    LoopAliases value (loopAliases value).1 (loopAliases value).2 := by
  have whole := List.takeWhile_append_dropWhile (p := Unicode.isBlank) (l := value)
  have blank : ∀ c ∈ value.takeWhile Unicode.isBlank, Unicode.isBlank c = true :=
    fun c => List.mem_takeWhile_imp
  have solid := head?_dropWhile_eq_false Unicode.isBlank value
  revert some
  unfold loopAliases
  dsimp only
  split
  next aliases found =>
    intro _
    obtain ⟨keyword, first⟩ := beforeKeyword?_eq_some_iff.1 found
    exact .beforeKeyword whole.symm blank solid keyword first
  next missing =>
    split
    next => exact fun some => absurd rfl some
    next away =>
      intro _
      refine .withoutKeyword fun before found => ?_
      rw [← whole] at found
      rcases keywordAfter_append_cases blank solid found with ⟨more, behind⟩ | ⟨some, starts⟩
      · exact beforeKeyword?_eq_none_iff.1 missing more behind
      · apply away
        rw [Bool.and_eq_true, Bool.not_eq_true', List.isEmpty_eq_false_iff]
        exact ⟨some, starts⟩

/-- The aliases of a loop are a part of the value. -/
theorem loopAliases_standsAt (value : List Char) :
    StandsAt value (loopAliases value).1 (loopAliases value).2 := by
  have whole := List.takeWhile_append_dropWhile (p := Unicode.isBlank) (l := value)
  unfold loopAliases
  dsimp only
  split
  next aliases found =>
    obtain ⟨gap, word, blank, rest, body, -⟩ := (beforeKeyword?_eq_some_iff.1 found).1
    rw [body] at whole
    exact ⟨_, _, whole.symm, rfl⟩
  next =>
    split
    next => exact ⟨_, _, whole.symm, rfl⟩
    next => exact ⟨[], value.dropWhile (· ≠ ' '), List.takeWhile_append_dropWhile.symm, rfl⟩

end Value

end SfcIndex.Template
