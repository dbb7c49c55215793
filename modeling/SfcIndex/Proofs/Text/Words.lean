import SfcIndex.Proofs.Text.Place
import SfcIndex.Text.Word

/-! # Maximal runs of word characters

`WordRun` says where a run stands without a word of how it is found. Going through a text, the runs
behind a character that is no word character, and behind a run, are those of what is left.
-/

namespace SfcIndex.Text

/-- The code points of ASCII letters and digits. -/
theorem isAlphanum_iff {c : Char} :
    c.isAlphanum = true ↔ (48 ≤ c.toNat ∧ c.toNat ≤ 57) ∨ (65 ≤ c.toNat ∧ c.toNat ≤ 90) ∨
      (97 ≤ c.toNat ∧ c.toNat ≤ 122) := by
  have upper : c.isUpper = true ↔ 65 ≤ c.toNat ∧ c.toNat ≤ 90 := decide_eq_true_iff
  have lower : c.isLower = true ↔ 97 ≤ c.toNat ∧ c.toNat ≤ 122 :=
    Bool.and_eq_true_iff.trans (and_congr decide_eq_true_iff decide_eq_true_iff)
  have digit : c.isDigit = true ↔ 48 ≤ c.toNat ∧ c.toNat ≤ 57 :=
    Bool.and_eq_true_iff.trans (and_congr decide_eq_true_iff decide_eq_true_iff)
  have split : c.isAlphanum = (c.isUpper || c.isLower || c.isDigit) := rfl
  rw [split, Bool.or_eq_true, Bool.or_eq_true, upper, lower, digit]
  omega

/-- The code points of word characters. -/
theorem toNat_of_isWordChar {c : Char} (word : isWordChar c = true) :
    (48 ≤ c.toNat ∧ c.toNat ≤ 57) ∨ (65 ≤ c.toNat ∧ c.toNat ≤ 90) ∨
      (97 ≤ c.toNat ∧ c.toNat ≤ 122) ∨ c.toNat = 95 ∨ c.toNat = 36 := by
  simp only [isWordChar, Bool.or_eq_true, isAlphanum_iff, decide_eq_true_iff] at word
  rcases word with (alphanum | rfl) | rfl
  · omega
  · decide
  · decide

/-- Lowering adds 32 to the code of a capital letter and keeps any other character. -/
theorem toNat_toLower (c : Char) :
    c.toLower.toNat = if 65 ≤ c.toNat ∧ c.toNat ≤ 90 then c.toNat + 32 else c.toNat := by
  by_cases upper : 65 ≤ c.toNat ∧ c.toNat ≤ 90
  · have range : c.val ≥ 'A'.val ∧ c.val ≤ 'Z'.val := upper
    have lower : c.toLower.val = c.val + 32 := congrArg Char.val (dif_pos range)
    rw [if_pos upper, Char.toNat, lower, UInt32.toNat_add]
    apply Nat.mod_eq_of_lt
    change c.toNat + 32 < 4294967296
    omega
  · have range : ¬ (c.val ≥ 'A'.val ∧ c.val ≤ 'Z'.val) := upper
    have same : c.toLower = c := dif_neg range
    rw [if_neg upper, same]

/-- What is left of a text starts with a character that does not pass. -/
theorem head?_dropWhile_eq_false (test : Char → Bool) (text : List Char) :
    ∀ c ∈ (text.dropWhile test).head?, test c = false := by
  intro c is
  have stops := List.head?_dropWhile_not test text
  rw [Option.mem_def.1 is] at stops
  exact stops

/-- A run of word characters that no other word character touches. -/
structure Isolated (before run after : List Char) : Prop where
  nonempty : run ≠ []
  word : ∀ c ∈ run, isWordChar c = true
  left : ∀ c ∈ before.getLast?, isWordChar c = false
  right : ∀ c ∈ after.head?, isWordChar c = false

/-- A maximal run of word characters stands in the text at a byte offset. -/
def WordRun (text : List Char) (offset : Nat) (run : List Char) : Prop :=
  ∃ before after, text = before ++ (run ++ after) ∧ width before = offset ∧
    Isolated before run after

namespace WordRun

variable {text rest run : List Char} {offset : Nat}

/-- A word is a part of its text. -/
theorem standsAt (found : WordRun text offset run) : StandsAt text offset run := by
  obtain ⟨before, after, whole, place, -⟩ := found
  exact ⟨before, after, whole, place⟩

/-- A word has a character. -/
theorem nonempty (found : WordRun text offset run) : run ≠ [] := by
  obtain ⟨before, after, -, -, isolated⟩ := found
  exact isolated.nonempty

theorem not_nil : ¬ WordRun [] offset run := by
  rintro ⟨before, after, whole, -, isolated⟩
  obtain ⟨-, parts⟩ := List.append_eq_nil_iff.1 whole.symm
  exact isolated.nonempty (List.append_eq_nil_iff.1 parts).1

/-- A character that is no word character only moves the runs behind it. -/
theorem cons_iff {c : Char} (other : isWordChar c = false) :
    WordRun (c :: rest) offset run ↔
      ∃ start, offset = c.utf8Size + start ∧ WordRun rest start run := by
  constructor
  · rintro ⟨before, after, whole, rfl, isolated⟩
    cases before with
    | nil =>
      -- A run at the start would begin with `c`.
      obtain ⟨first, more, rfl⟩ := List.exists_cons_of_ne_nil isolated.nonempty
      cases whole
      rw [isolated.word c List.mem_cons_self] at other
      cases other
    | cons first lead =>
      cases whole
      refine ⟨width lead, rfl, lead, after, rfl, rfl, isolated.nonempty, isolated.word, ?_,
        isolated.right⟩
      intro last is
      apply isolated.left
      rw [List.getLast?_cons, Option.mem_def.1 is]
      rfl
  · rintro ⟨start, rfl, before, after, rfl, rfl, isolated⟩
    refine ⟨c :: before, after, rfl, rfl, isolated.nonempty, isolated.word, ?_, isolated.right⟩
    intro last is
    rw [List.getLast?_cons] at is
    cases ends : before.getLast? with
    | none =>
      rw [ends] at is
      cases is
      exact other
    | some found =>
      rw [ends] at is
      cases is
      exact isolated.left _ ends

/-- The runs of a text that starts with one are that one and those behind it. -/
theorem append_iff {first : List Char} (nonempty : first ≠ [])
    (word : ∀ c ∈ first, isWordChar c = true)
    (stops : ∀ c ∈ rest.head?, isWordChar c = false) :
    WordRun (first ++ rest) offset run ↔
      (offset = 0 ∧ run = first) ∨
        ∃ start, offset = width first + start ∧ WordRun rest start run := by
  constructor
  · rintro ⟨before, after, whole, rfl, isolated⟩
    by_cases atStart : before = []
    · subst atStart
      left
      obtain ⟨same, -⟩ := takeWhile_dropWhile_append isolated.word
        fun c is => isolated.right c (Option.mem_def.2 is)
      obtain ⟨same', -⟩ := takeWhile_dropWhile_append word fun c is => stops c (Option.mem_def.2 is)
      rw [List.nil_append] at whole
      exact ⟨rfl, by rw [← same, ← whole, same']⟩
    · right
      -- What stands before the run ends with no word character, so it reaches beyond `first`.
      have longer : ∀ more, first = before ++ more → more = [] := by
        intro more split
        have last := List.getLast_mem atStart
        have inside : before.getLast atStart ∈ first := by
          rw [split]
          exact List.mem_append_left _ last
        have outside := isolated.left _ (List.getLast?_eq_some_getLast atStart)
        rw [word _ inside] at outside
        cases outside
      obtain ⟨lead, rfl, rest_eq⟩ := exists_of_append_eq whole.symm longer
      refine ⟨width lead, width_append _ _, lead, after, rest_eq, rfl, isolated.nonempty,
        isolated.word, ?_, isolated.right⟩
      intro last is
      apply isolated.left
      rw [List.getLast?_append, Option.mem_def.1 is]
      rfl
  · rintro (⟨rfl, rfl⟩ | ⟨start, rfl, before, after, rfl, rfl, isolated⟩)
    · exact ⟨[], rest, rfl, rfl, nonempty, word, by simp, stops⟩
    · refine ⟨first ++ before, after, by simp, width_append _ _, isolated.nonempty, isolated.word,
        ?_, isolated.right⟩
      intro last is
      rw [List.getLast?_append] at is
      cases ends : before.getLast? with
      | none =>
        -- Nothing stands between the two runs, which is impossible.
        obtain ⟨c, more, rfl⟩ := List.exists_cons_of_ne_nil isolated.nonempty
        rw [List.getLast?_eq_none_iff.1 ends] at stops
        have outside := stops c rfl
        rw [isolated.word c List.mem_cons_self] at outside
        cases outside
      | some found =>
        rw [ends] at is
        cases is
        exact isolated.left _ ends

end WordRun

end SfcIndex.Text
