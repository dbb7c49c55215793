import SfcIndex.Proofs.Bytes.Template
import SfcIndex.Proofs.Text.Borders
import SfcIndex.Table

/-! # The word at a byte of a text

A word is a longest range of word bytes, and a place has at most one that it lies in or touches
(`Bytes.WordRange.unique`). The word at a place is that range, so the answer is the same from
everywhere in the range and from its end (`Bytes.wordAt?_touches`).
-/

namespace SfcIndex.Bytes

open Text

/-- Whether the byte at an index of a text can be part of a word. -/
def isWordByte (text : List Char) (index : Nat) : Bool :=
  (encode text)[index]?.any (onBytes isWordChar)

/-- A longest range of word bytes in a text. -/
structure WordRange (text : List Char) (range : Span) : Prop where
  nonempty : range.start < range.stop
  word : ∀ index, range.start ≤ index → index < range.stop → isWordByte text index = true
  left : ∀ index, index + 1 = range.start → isWordByte text index = false
  right : isWordByte text range.stop = false

/-- A place lies in a range or right behind it. -/
structure Touches (range : Span) (place : Nat) : Prop where
  start_le : range.start ≤ place
  le_stop : place ≤ range.stop

namespace WordRange

variable {text : List Char} {first second range : Span} {place : Nat}

/-- Of two words that touch a place neither starts behind the other. -/
theorem start_le_start (known : WordRange text first) (touched : Touches first place)
    (other : WordRange text second) (touched' : Touches second place) :
    first.start ≤ second.start := by
  have start_le := touched.start_le
  have le_stop := touched'.le_stop
  by_contra later
  -- The byte before the start of `first` would be one of `second`.
  have inside := other.word (first.start - 1) (by omega) (by omega)
  rw [known.left (first.start - 1) (by omega)] at inside
  cases inside

/-- Of two words that touch a place neither ends in front of the other. -/
theorem stop_le_stop (known : WordRange text first) (touched : Touches first place)
    (other : WordRange text second) (touched' : Touches second place) :
    first.stop ≤ second.stop := by
  have start_le := touched.start_le
  have le_stop := touched'.le_stop
  by_contra later
  have inside := known.word second.stop (by omega) (by omega)
  rw [other.right] at inside
  cases inside

/-- A place touches at most one word. -/
theorem unique (known : WordRange text first) (touched : Touches first place)
    (other : WordRange text second) (touched' : Touches second place) : first = second := by
  have start := Nat.le_antisymm (known.start_le_start touched other touched')
    (other.start_le_start touched' known touched)
  have stop := Nat.le_antisymm (known.stop_le_stop touched other touched')
    (other.stop_le_stop touched' known touched)
  cases first
  cases second
  cases start
  cases stop
  rfl

/-- The byte at a place that touches a word, or the one before it, is a word byte. -/
theorem near (known : WordRange text range) (touched : Touches range place) :
    isWordByte text place = true ∨
      ∃ before, before + 1 = place ∧ isWordByte text before = true := by
  have nonempty := known.nonempty
  have start_le := touched.start_le
  have le_stop := touched.le_stop
  by_cases ends : place = range.stop
  · exact .inr ⟨place - 1, by omega, known.word _ (by omega) (by omega)⟩
  · exact .inl (known.word _ start_le (by omega))

end WordRange

section Characters

variable {text before run after : List Char} {index : Nat}

/-- A byte is one of a word when its character is. -/
theorem isWordByte_eq_of_getElem? {c : Char} {byte : UInt8}
    (found : (encode text)[index]? = some byte) (member : byte ∈ String.utf8EncodeChar c) :
    isWordByte text index = isWordChar c := by
  rw [isWordByte, found, Option.any_some, follows_isWordChar c byte member]

/-- A word byte is a word character. -/
theorem exists_of_isWordByte (word : isWordByte text index = true) :
    ∃ before c after, text = before ++ c :: after ∧ width before = index ∧
      isWordChar c = true := by
  rw [isWordByte, Option.any_eq_true] at word
  obtain ⟨byte, found, passes⟩ := word
  obtain ⟨c, rest, ⟨before, whole, place⟩, is⟩ :=
    On.of_byte follows_isWordChar (fun _ => isAscii_of_isWordChar) found passes
  exact ⟨before, c, rest, whole, place.symm, is⟩

/-- The bytes of a run of word characters are word bytes. -/
theorem isWordByte_of_run (word : ∀ c ∈ run, isWordChar c = true) (start : width before ≤ index)
    (stop : index < width before + width run) :
    isWordByte (before ++ (run ++ after)) index = true := by
  have inside : index - width before < (encode run).length := by
    rw [length_encode]
    omega
  have found : (encode (before ++ (run ++ after)))[index]? =
      some (encode run)[index - width before] := by
    rw [encode_append, encode_append, List.getElem?_append_right (by rw [length_encode]; omega),
      length_encode, List.getElem?_append_left inside, List.getElem?_eq_getElem inside]
  obtain ⟨c, member, byte⟩ := List.mem_flatMap.1 (List.getElem_mem inside)
  rw [isWordByte_eq_of_getElem? found byte, word c member]

/-- A maximal run of word characters takes a longest range of word bytes. -/
theorem wordRange_of_wordRun {start : Nat} (found : WordRun text start run) :
    WordRange text ⟨start, start + width run⟩ := by
  obtain ⟨before, after, rfl, rfl, isolated⟩ := found
  refine ⟨?_, ?_, ?_, ?_⟩
  · apply Nat.lt_add_of_pos_right
    apply Nat.pos_of_ne_zero
    intro none
    exact isolated.nonempty (eq_nil_of_width none)
  · intro index start_le lt_stop
    exact isWordByte_of_run isolated.word start_le lt_stop
  · intro index place
    apply Bool.eq_false_iff.2
    intro word
    -- The character of that byte would be the last one before the run.
    obtain ⟨lead, c, rest, whole, place', passes⟩ := exists_of_isWordByte word
    have size := utf8Size_ascii (isAscii_of_isWordChar passes)
    have same : before ++ (run ++ after) = (lead ++ [c]) ++ rest := by rw [whole]; simp
    have level : width (lead ++ [c]) = width before := by
      rw [width_append, width_cons, size, place']
      exact place
    obtain ⟨rfl, -⟩ := eq_of_width_eq same level
    rw [isolated.left c List.getLast?_concat] at passes
    cases passes
  · apply Bool.eq_false_iff.2
    intro word
    obtain ⟨lead, c, rest, whole, place, passes⟩ := exists_of_isWordByte word
    have same : (before ++ run) ++ after = lead ++ c :: rest := by rw [← whole, List.append_assoc]
    obtain ⟨-, rfl⟩ := eq_of_width_eq same (by rw [place, width_append])
    rw [isolated.right c rfl] at passes
    cases passes

end Characters

section Word

variable {text : List Char} {range : Span} {word : String} {place : Nat}

/-- A text is parted before the word characters at its end. -/
theorem exists_trailingWord (text : List Char) :
    ∃ lead, text = lead ++ trailingWord text ∧ ∀ c ∈ lead.getLast?, isWordChar c = false := by
  refine ⟨(text.reverse.dropWhile isWordChar).reverse, ?_, ?_⟩
  · rw [trailingWord, ← List.reverse_append, List.takeWhile_append_dropWhile, List.reverse_reverse]
  · rw [List.getLast?_reverse]
    exact head?_dropWhile_eq_false isWordChar text.reverse

/-- The word at the end of a text is made of word characters. -/
theorem isWordChar_of_mem_trailingWord {c : Char} (member : c ∈ trailingWord text) :
    isWordChar c = true :=
  List.mem_takeWhile_imp (List.mem_reverse.1 member)

/-- The word at a place is a maximal run of word characters that the place touches. -/
theorem wordRun_of_wordAt? (found : wordAt? text place = some (range, word)) :
    WordRun text range.start word.toList ∧ range.stop = range.start + width word.toList ∧
      Touches range place := by
  obtain ⟨⟨before, after⟩, parted, answer⟩ := Option.bind_eq_some_iff.1 found
  obtain ⟨rfl, rfl⟩ := splitAt?_eq_some parted
  dsimp only at answer
  split at answer
  next => cases answer
  next some =>
    cases answer
    obtain ⟨lead, whole, left⟩ := exists_trailingWord before
    have size := congrArg width whole
    rw [width_append] at size
    rw [String.toList_ofList, width_append]
    refine ⟨⟨lead, after.dropWhile isWordChar, ?_, ?_, ?_, ?_, left, ?_⟩, ?_, ?_, ?_⟩
    · rw [List.append_assoc, List.takeWhile_append_dropWhile, ← List.append_assoc, ← whole]
    · dsimp only
      omega
    · intro none
      apply some
      rw [Bool.and_eq_true, List.isEmpty_iff, List.isEmpty_iff]
      exact List.append_eq_nil_iff.1 none
    · intro c member
      rcases List.mem_append.1 member with head | tail
      · exact isWordChar_of_mem_trailingWord head
      · exact List.mem_takeWhile_imp tail
    · exact head?_dropWhile_eq_false isWordChar after
    · dsimp only
      omega
    · exact Nat.sub_le _ _
    · exact Nat.le_add_right _ _

/-- There is a word at a place when word characters stand in front of it or behind it. -/
theorem wordAt?_isSome_of_parts {before after : List Char}
    (some : trailingWord before ≠ [] ∨ after.takeWhile isWordChar ≠ []) :
    (wordAt? (before ++ after) (width before)).isSome = true := by
  rw [wordAt?, splitAt?_width]
  simp only [Option.bind_eq_bind, Option.bind_some]
  rw [if_neg]
  · rfl
  · rw [Bool.and_eq_true, List.isEmpty_iff, List.isEmpty_iff]
    exact fun none => some.elim (· none.1) (· none.2)

/-- There is a word at every place that touches one. -/
theorem wordAt?_isSome (known : WordRange text range) (touched : Touches range place) :
    (wordAt? text place).isSome = true := by
  rcases known.near touched with word | ⟨index, rfl, word⟩
  · obtain ⟨before, c, after, rfl, rfl, passes⟩ := exists_of_isWordByte word
    apply wordAt?_isSome_of_parts
    rw [List.takeWhile_cons_of_pos passes]
    exact .inr (List.cons_ne_nil _ _)
  · obtain ⟨before, c, after, rfl, rfl, passes⟩ := exists_of_isWordByte word
    have size := utf8Size_ascii (isAscii_of_isWordChar passes)
    have split : before ++ c :: after = (before ++ [c]) ++ after := by simp
    have place : width before + 1 = width (before ++ [c]) := by simp [size]
    rw [split, place]
    apply wordAt?_isSome_of_parts
    left
    rw [trailingWord, List.reverse_append, List.reverse_singleton, List.singleton_append,
      List.takeWhile_cons_of_pos passes, List.reverse_cons]
    exact List.append_ne_nil_of_right_ne_nil _ (List.cons_ne_nil _ _)

/-- The word at a place is what stands in the longest range of word bytes that the place touches. -/
theorem wordAt?_eq_some_iff :
    wordAt? text place = some (range, word) ↔
      WordRange text range ∧ Touches range place ∧ range.slice? text = some word.toList := by
  have sound : ∀ {range : Span} {word : String}, wordAt? text place = some (range, word) →
      WordRange text range ∧ Touches range place ∧ range.slice? text = some word.toList := by
    intro range word found
    obtain ⟨run, stop_eq, touched⟩ := wordRun_of_wordAt? found
    obtain ⟨start, stop⟩ := range
    dsimp only at run stop_eq
    subst stop_eq
    exact ⟨wordRange_of_wordRun run, touched, standsAt_iff_slice?.1 run.standsAt⟩
  constructor
  · exact sound
  · intro holds
    obtain ⟨known, touched, covers⟩ := holds
    obtain ⟨⟨range', word'⟩, found⟩ := Option.isSome_iff_exists.1 (wordAt?_isSome known touched)
    obtain ⟨known', touched', covers'⟩ := sound found
    obtain rfl := known.unique touched known' touched'
    rw [covers, Option.some.injEq, String.toList_inj] at covers'
    rw [found, covers']

/-- A word touches places of its text only. -/
theorem le_width_of_wordRange (known : WordRange text range) (touched : Touches range place) :
    place ≤ width text := by
  rcases known.near touched with word | ⟨index, rfl, word⟩
  · obtain ⟨before, c, after, rfl, rfl, -⟩ := exists_of_isWordByte word
    rw [width_append]
    exact Nat.le_add_right _ _
  · obtain ⟨before, c, after, rfl, rfl, -⟩ := exists_of_isWordByte word
    have positive := c.utf8Size_pos
    rw [width_append, width_cons]
    omega

end Word

/-- There is a word at a place exactly when the place is in the text, ends included, and touches a
longest range of word bytes. There is at most one such range. The word is what stands there, and
every place that touches the range has this word and finds the same definitions of it. -/
theorem wordAt?_touches (text : List Char) (place : Nat) :
    ((wordAt? text place).isSome = true ↔
        place ≤ width text ∧ ∃ range, WordRange text range ∧ Touches range place) ∧
      (∀ first second, WordRange text first → Touches first place →
        WordRange text second → Touches second place → first = second) ∧
      ∀ range word, wordAt? text place = some (range, word) →
        (WordRange text range ∧ Touches range place ∧ range.slice? text = some word.toList) ∧
        ∀ other, Touches range other →
          wordAt? text other = some (range, word) ∧
          ∀ table : Table, table.definitionAt? text other = table.definitionAt? text place := by
  refine ⟨⟨?_, ?_⟩, ?_, ?_⟩
  · intro some
    obtain ⟨⟨range, word⟩, found⟩ := Option.isSome_iff_exists.1 some
    obtain ⟨known, touched, -⟩ := wordAt?_eq_some_iff.1 found
    exact ⟨le_width_of_wordRange known touched, range, known, touched⟩
  · intro holds
    obtain ⟨_, range, known, touched⟩ := holds
    exact wordAt?_isSome known touched
  · intro first second known touched other touched'
    exact known.unique touched other touched'
  · intro range word found
    obtain ⟨known, touched, covers⟩ := wordAt?_eq_some_iff.1 found
    refine ⟨⟨known, touched, covers⟩, ?_⟩
    intro other touched'
    have same := wordAt?_eq_some_iff.2 ⟨known, touched', covers⟩
    refine ⟨same, ?_⟩
    intro table
    rw [Table.definitionAt?, Table.definitionAt?, same, found]

/-- A word behind a letter of two bytes is found from its start and from its end, where another
character follows, and a place inside that letter touches no word. -/
theorem wordAt?_touches_edges :
    let text := "é$a-b".toList
    (wordAt? text 2 = some (⟨2, 4⟩, "$a") ∧ Touches ⟨2, 4⟩ 4) ∧
      WordRange text ⟨2, 4⟩ ∧ wordAt? text 4 = some (⟨2, 4⟩, "$a") ∧
      ¬ ∃ range, WordRange text range ∧ Touches range 1 := by
  intro text
  have found : wordAt? text 2 = some (⟨2, 4⟩, "$a") := by decide +kernel
  have touched : Touches ⟨2, 4⟩ 4 := ⟨by decide, by decide⟩
  obtain ⟨-, -, answers⟩ := wordAt?_touches text 2
  obtain ⟨⟨known, -, -⟩, others⟩ := answers _ _ found
  refine ⟨⟨found, touched⟩, known, (others 4 touched).1, ?_⟩
  intro touches
  have some := (wordAt?_touches text 1).1.2 ⟨by decide +kernel, touches⟩
  revert some
  decide +kernel

end SfcIndex.Bytes
