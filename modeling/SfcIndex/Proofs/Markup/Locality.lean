import SfcIndex.Proofs.Markup.Scan

/-! # Scanning looks at nothing behind a tag

Whether a tag stands at a place is decided by the text up to its `>`. Text behind a tag can
therefore be left out or exchanged without changing the tags up to it (`Region.tags_cut`). What
comes after the cut can end a quote, a comment or a tag that is still unfinished there, but then the
scanner does not stop at the cut.
-/

namespace SfcIndex.Markup

open Text

/-- A reader of tags that looks at nothing behind the tag it finds. -/
def LooksNoFurther (read : List Char → Option (Tag × Cursor)) : Prop :=
  ∀ text tag next, read text = some (tag, next) →
    ∃ written, text = written ++ next.rest ∧
      ∀ rest, read (written ++ rest) = some (tag, ⟨next.offset, rest⟩)

namespace LooksNoFurther

variable {read : List Char → Option (Tag × Cursor)} {text rest left : List Char} {tag : Tag}
  {next : Cursor}

/-- A tag is read the same way when more text follows. -/
theorem append (looks : LooksNoFurther read) (found : read text = some (tag, next))
    (rest : List Char) : read (text ++ rest) = some (tag, ⟨next.offset, next.rest ++ rest⟩) := by
  obtain ⟨written, rfl, again⟩ := looks text tag next found
  rw [List.append_assoc, again]

/-- A tag that ends in front of the added text is read without it. -/
theorem of_append (looks : LooksNoFurther read) (found : read (text ++ rest) = some (tag, next))
    (stays : next.rest = left ++ rest) : read text = some (tag, ⟨next.offset, left⟩) := by
  obtain ⟨written, same, again⟩ := looks _ tag next found
  rw [stays, ← List.append_assoc] at same
  rw [List.append_cancel_right same, again]

end LooksNoFurther

/-- Reading a closing tag looks no further than its end. -/
theorem closingTag?_looksNoFurther (start : Nat) : LooksNoFurther (closingTag? start) := by
  intro text tag next found
  obtain ⟨name, blanks, rest, named, blank, rfl⟩ :
      ∃ name blanks rest, (∀ c ∈ name, isNameChar c = true) ∧
        (∀ c ∈ blanks, isAsciiBlank c = true) ∧ text = name ++ (blanks ++ '>' :: rest) := by
    unfold closingTag? at found
    dsimp only at found
    split at found
    next rest ends =>
      refine ⟨_, _, rest, fun c => List.mem_takeWhile_imp (p := isNameChar) (l := text),
        fun c => List.mem_takeWhile_imp (p := isAsciiBlank) (l := text.dropWhile isNameChar), ?_⟩
      rw [← ends, List.takeWhile_append_dropWhile, List.takeWhile_append_dropWhile]
    next => cases found
  rw [closingTag?_name named blank] at found
  cases found
  refine ⟨name ++ (blanks ++ ['>']), by simp, fun other => ?_⟩
  rw [← closingTag?_name named blank start other]
  simp

/-- The search for the end of a tag looks no further than that. -/
theorem splitAtClose?_looksNoFurther {state : CloseSearch} {text inside rest : List Char}
    (found : splitAtClose? state text = some (inside, rest)) (other : List Char) :
    splitAtClose? state (inside ++ '>' :: other) = some (inside, other) := by
  induction text generalizing state inside with
  | nil => cases found
  | cons c text ih =>
    rw [splitAtClose?] at found
    split at found
    next ends =>
      cases found
      cases CloseSearch.eq_of_endsAt ends
      rw [List.nil_append, splitAtClose?, if_pos ends]
    next goes =>
      obtain ⟨⟨front, back⟩, later, same⟩ := Option.map_eq_some_iff.1 found
      cases same
      rw [List.cons_append, splitAtClose?, if_neg goes, ih later]
      rfl

/-- Reading an opening tag looks no further than its end. -/
theorem openingTag?_looksNoFurther (start : Nat) : LooksNoFurther (openingTag? start) := by
  intro text tag next found
  obtain ⟨name, inside, rest, nonempty, named, ends, close, rfl⟩ :
      ∃ name inside rest, name ≠ [] ∧ (∀ c ∈ name, isNameChar c = true) ∧
        endsName (inside ++ '>' :: rest) = true ∧
        splitAtClose? (.outside false) (inside ++ '>' :: rest) = some (inside, rest) ∧
        text = name ++ (inside ++ '>' :: rest) := by
    unfold openingTag? at found
    dsimp only at found
    split at found
    next => cases found
    next shaped =>
      simp only [Bool.or_eq_true, List.isEmpty_iff, Bool.not_eq_true', not_or,
        Bool.not_eq_false] at shaped
      split at found
      next => cases found
      next inside rest close =>
        have tail := eq_of_splitAtClose? close
        refine ⟨_, inside, rest, shaped.1,
          fun c => List.mem_takeWhile_imp (p := isNameChar) (l := text), tail ▸ shaped.2,
          tail ▸ close, ?_⟩
        rw [← tail, List.takeWhile_append_dropWhile]
  have close' := splitAtClose?_looksNoFurther close
  have ends' : ∀ other, endsName (inside ++ '>' :: other) = true := by
    intro other
    cases inside with
    | nil => rfl
    | cons c more => exact ends
  rw [openingTag?_name nonempty named start ends close] at found
  cases found
  refine ⟨name ++ (inside ++ ['>']), by simp, fun other => ?_⟩
  rw [← openingTag?_name nonempty named start (ends' other) (close' other)]
  simp

/-- A comment has no end, or it has a body that the first `-->` ends. -/
theorem pastComment_cases (offset : Nat) (text : List Char) :
    (pastComment offset text).rest = [] ∨
      ∃ body rest, EndsComment body ∧ text = body ++ '-' :: '-' :: '>' :: rest := by
  fun_induction pastComment offset text with
  | case1 offset => exact .inl rfl
  | case2 offset rest =>
    refine .inr ⟨[], rest, ?_, rfl⟩
    intro before after same
    exact Nat.zero_le _
  | case3 offset c rest other ih =>
    obtain none | ⟨body, after, ends, rfl⟩ := ih
    · exact .inl none
    · refine .inr ⟨c :: body, after, ?_, rfl⟩
      intro before last same
      cases before with
      | nil =>
        rw [List.cons_append, List.nil_append, List.cons.injEq] at same
        refine (other (last ++ after) same.1 ?_).elim
        have whole := congrArg (· ++ after) same.2
        simpa using whole
      | cons d before =>
        rw [List.cons_append, List.cons_append, List.cons.injEq] at same
        exact Nat.succ_le_succ (ends before last same.2)

end SfcIndex.Markup

namespace SfcIndex.Text.Cursor

open Markup

section

variable {front rest left : List Char} {tag : Tag} {next : Cursor}

/-- Where no comment and no closing tag starts, none starts with the text behind, if the scanner
then stops before that text. -/
theorem angle_of_append {offset : Nat}
    (found : nextTag? ⟨offset, '<' :: (front ++ rest)⟩ = some (tag, next))
    (stays : rest.length ≤ next.rest.length)
    (comment : ∀ more, front ≠ '!' :: '-' :: '-' :: more) (closing : ∀ more, front ≠ '/' :: more) :
    (∀ more, front ++ rest ≠ '!' :: '-' :: '-' :: more) ∧
      ∀ more, front ++ rest ≠ '/' :: more := by
  constructor
  · intro more same
    have short : ¬ 3 ≤ front.length := by
      intro long
      have starts : ['!', '-', '-'] <+: front ++ rest := ⟨more, same.symm⟩
      obtain ⟨last, split⟩ :=
        List.prefix_of_prefix_length_le starts (List.prefix_append front rest) long
      exact comment last split.symm
    rw [same, nextTag?] at found
    have := length_nextTag?_lt found
    have := length_pastComment_le (offset + 4) more
    have := congrArg List.length same
    simp only [List.length_append, List.length_cons] at this
    omega
  · intro more same
    cases front with
    | cons c tail =>
      cases same
      exact closing tail rfl
    | nil =>
      rw [List.nil_append] at same found
      rw [same, nextTag?] at found
      rw [same, List.length_cons] at stays
      split at found
      next read closed =>
        have := length_closingTag?_lt (closed.trans found)
        omega
      next =>
        have := length_nextTag?_lt found
        simp only [List.length_cons] at this
        omega

/-- A tag that is found before some text is found without that text. -/
theorem nextTag?_of_append (cursor : Cursor)
    (found : nextTag? ⟨cursor.offset, cursor.rest ++ rest⟩ = some (tag, next))
    (stays : next.rest = left ++ rest) : cursor.nextTag? = some (tag, ⟨next.offset, left⟩) := by
  have long : rest.length ≤ next.rest.length := by simp [stays]
  fun_induction nextTag? cursor with
  | case1 offset =>
    have := length_nextTag?_lt found
    simp only [List.nil_append] at this
    omega
  | case2 offset text ih =>
    simp only [List.cons_append, nextTag?] at found
    obtain none | ⟨body, after, ends, same⟩ := pastComment_cases (offset + 4) (text ++ rest)
    · have := length_nextTag?_lt found
      simp [none] at this
    · rw [same, pastComment_body ends] at found
      have shorter : next.rest.length < after.length := length_nextTag?_lt found
      have whole : text ++ rest = (body ++ ['-', '-', '>']) ++ after := by rw [same]; simp
      obtain ⟨more, text_eq, rfl⟩ := exists_of_length_le whole (by omega)
      rw [List.append_assoc] at text_eq
      rw [text_eq, List.cons_append, List.cons_append, List.cons_append, List.nil_append,
        pastComment_body ends] at ih ⊢
      exact ih found
  | case3 offset text read closed =>
    have same := (closingTag?_looksNoFurther offset).append closed rest
    rw [List.cons_append, List.cons_append, nextTag?, same] at found
    cases found
    cases List.append_cancel_right stays
    rfl
  | case4 offset text closed ih =>
    rw [List.cons_append, List.cons_append, nextTag?] at found
    split at found
    next read closed' =>
      have read := (closingTag?_looksNoFurther offset).of_append (closed'.trans found) stays
      rw [closed] at read
      cases read
    next => exact ih found
  | case5 offset text comment closing read opened =>
    obtain ⟨comment', closing'⟩ := angle_of_append found long comment closing
    have same := (openingTag?_looksNoFurther offset).append opened rest
    rw [List.cons_append, nextTag?_angle comment' closing', same] at found
    cases found
    cases List.append_cancel_right stays
    rfl
  | case6 offset text comment closing opened ih =>
    obtain ⟨comment', closing'⟩ := angle_of_append found long comment closing
    rw [List.cons_append, nextTag?_angle comment' closing'] at found
    split at found
    next read opened' =>
      have read := (openingTag?_looksNoFurther offset).of_append (opened'.trans found) stays
      rw [opened] at read
      cases read
    next => exact ih found
  | case7 offset c text _ _ other ih =>
    rw [List.cons_append, nextTag?_of_ne other] at found
    exact ih found

/-- Lowering the character of a name does not give `>`. -/
theorem toLower_ne_of_isNameChar {c : Char} (named : isNameChar c = true) : c.toLower ≠ '>' := by
  intro same
  unfold Char.toLower at same
  split at same
  next upper =>
    have value := congrArg (fun d : Char => d.val.toNat) same
    have above : 'A'.val.toNat ≤ c.val.toNat := upper.1
    have below : c.val.toNat ≤ 'Z'.val.toNat := upper.2
    simp at value above below
    omega
  next =>
    rw [same] at named
    cases named

/-- A name is never matched by text that holds a `>`. -/
theorem asciiFold_ne_of_mem {name text : List Char} (named : ∀ c ∈ name, isNameChar c = true)
    (closes : '>' ∈ text) : asciiFold text ≠ asciiFold name := by
  intro same
  have folded : '>' ∈ asciiFold text := List.mem_map.2 ⟨'>', closes, rfl⟩
  rw [same] at folded
  obtain ⟨c, member, lower⟩ := List.mem_map.1 folded
  exact toLower_ne_of_isNameChar (named c member) lower

/-- Raw text ends at `</` only. -/
theorem atRawEnd_of_ne {name text : List Char} (unmarked : ∀ more, text ≠ '<' :: '/' :: more) :
    atRawEnd name text = false := by
  rw [atRawEnd.eq_def]
  split
  next more => exact absurd rfl (unmarked more)
  next => rfl

/-- When the text in front of a cut ends with `>`, the text behind it does not decide where an
element with raw text ends before the cut. -/
theorem atRawEnd_append {name text : List Char} (named : ∀ c ∈ name, isNameChar c = true)
    (ends : text.getLast? = some '>') (rest : List Char) :
    atRawEnd name (text ++ rest) = atRawEnd name text := by
  by_cases marked : ∃ more, text = '<' :: '/' :: more
  · obtain ⟨more, rfl⟩ := marked
    have last : '>' ∈ more := by
      have member := List.mem_of_getLast? ends
      simpa using member
    rw [List.cons_append, List.cons_append, atRawEnd, atRawEnd]
    by_cases inside : name.length < more.length
    · obtain ⟨d, tail, split⟩ : ∃ d tail, more.drop name.length = d :: tail := by
        apply List.exists_cons_of_ne_nil
        rw [ne_eq, List.drop_eq_nil_iff]
        omega
      rw [List.take_append_of_le_length (by omega), List.drop_append_of_le_length (by omega), split]
      rfl
    · have whole : '>' ∈ more.take name.length := by
        rwa [List.take_of_length_le (by omega)]
      have taken : '>' ∈ (more ++ rest).take name.length := by
        rw [List.take_append]
        exact List.mem_append_left _ whole
      have differs := asciiFold_ne_of_mem named taken
      have differs' := asciiFold_ne_of_mem named whole
      rw [beq_eq_false_iff_ne.2 differs, beq_eq_false_iff_ne.2 differs']
      rfl
  · have unmarked : ∀ more, text ≠ '<' :: '/' :: more := fun more same => marked ⟨more, same⟩
    have unmarked' : ∀ more, text ++ rest ≠ '<' :: '/' :: more := by
      intro more same
      rcases text with _ | ⟨c, _ | ⟨d, tail⟩⟩
      · cases ends
      · cases ends
        cases same
      · cases same
        exact unmarked tail rfl
    rw [atRawEnd_of_ne unmarked, atRawEnd_of_ne unmarked']

/-- A jump over raw text that stays before some text is the same without that text. -/
theorem skipRaw_of_append {name : List Char} (named : ∀ c ∈ name, isNameChar c = true)
    {offset : Nat} (ends : front.getLast? = some '>')
    (stays : (skipRaw name ⟨offset, front ++ rest⟩).rest = left ++ rest) (nonempty : left ≠ []) :
    skipRaw name ⟨offset, front⟩ = ⟨(skipRaw name ⟨offset, front ++ rest⟩).offset, left⟩ := by
  have longer := List.length_pos_iff.2 nonempty
  change (skipRaw.go name offset (front ++ rest)).rest = left ++ rest at stays
  change skipRaw.go name offset front = ⟨(skipRaw.go name offset (front ++ rest)).offset, left⟩
  induction front generalizing offset with
  | nil => cases ends
  | cons c more ih =>
    have whole : skipRaw.go name offset (c :: more ++ rest) =
        if atRawEnd name (c :: more) then ⟨offset, c :: more ++ rest⟩
        else skipRaw.go name (offset + c.utf8Size) (more ++ rest) := by
      rw [← atRawEnd_append named ends rest]
      rfl
    rw [whole] at stays ⊢
    rw [skipRaw.go]
    by_cases stops : atRawEnd name (c :: more) = true
    · rw [if_pos stops] at stays ⊢
      rw [if_pos stops]
      rw [List.append_cancel_right stays]
    · rw [if_neg stops] at stays ⊢
      rw [if_neg stops]
      cases more with
      | nil =>
        have shorter : (skipRaw.go name (offset + c.utf8Size) rest).rest.length ≤ rest.length :=
          length_skipRaw_le name ⟨offset + c.utf8Size, rest⟩
        rw [List.nil_append] at stays
        rw [stays, List.length_append] at shorter
        omega
      | cons d tail => exact ih ends stays

end

end SfcIndex.Text.Cursor

namespace SfcIndex.Markup.Region

open Text

variable {rawTags : List String} {front rest : List Char}

/-- A tag ends behind a `>`. -/
theorem exists_of_mem_tags {cursor : Cursor} {tag : Tag} (member : tag ∈ tags rawTags cursor) :
    ∃ before after, cursor.rest = before ++ '>' :: after ∧
      tag.span.stop = cursor.offset + width before + 1 := by
  fun_induction tags rawTags cursor with
  | case1 cursor none => simp at member
  | case2 cursor first next found ih =>
    obtain ⟨lead, text, offset⟩ := exists_of_nextTag? found
    rcases List.mem_cons.1 member with rfl | later
    · obtain ⟨site⟩ := Cursor.nextTag?_site found
      exact ⟨lead, next.rest, text, by rw [← site.next_eq, offset]⟩
    · obtain ⟨before, after, split, stop⟩ := ih later
      obtain ⟨skipped, same, place⟩ := resume_skips rawTags first next
      refine ⟨lead ++ '>' :: (skipped ++ before), after, ?_, ?_⟩
      · rw [text, same, split]
        simp
      · have greater : '>'.utf8Size = 1 := rfl
        simp only [width_append, width_cons, greater]
        omega

/-- An empty text has no tags. -/
theorem tags_of_nil {cursor : Cursor} (none : cursor.rest = []) : tags rawTags cursor = [] := by
  obtain ⟨offset, text⟩ := cursor
  cases none
  exact tags_of_none (by rw [Cursor.nextTag?])

/-- The first tag is found next, and the others where the scan goes on. -/
theorem nextTag?_of_tags {cursor : Cursor} {tag : Tag} {later : List Tag}
    (read : tags rawTags cursor = tag :: later) :
    ∃ next, cursor.nextTag? = some (tag, next) ∧
      later = tags rawTags (resume rawTags tag next) := by
  cases found : cursor.nextTag? with
  | none =>
    rw [tags_of_none found] at read
    cases read
  | some first =>
    rw [tags_of_some found] at read
    cases read
    exact ⟨first.2, rfl, rfl⟩

/-- Behind a `>` the scan goes on at the same place when more text follows. -/
theorem resume_of_append {tag : Tag} (named : ∀ c ∈ tag.name.toList, isNameChar c = true)
    {offset : Nat} {left : List Char} (ends : front.getLast? = some '>')
    (stays : (resume rawTags tag ⟨offset, front ++ rest⟩).rest = left ++ rest)
    (nonempty : left ≠ []) :
    resume rawTags tag ⟨offset, front⟩ =
      ⟨(resume rawTags tag ⟨offset, front ++ rest⟩).offset, left⟩ := by
  unfold resume at stays ⊢
  split
  next raw =>
    rw [if_pos raw] at stays
    exact Cursor.skipRaw_of_append named ends stays nonempty
  next markup =>
    rw [if_neg markup] at stays
    rw [List.append_cancel_right stays]

/-- The tag that ends at a cut is found without the text behind the cut. -/
theorem nextTag?_cut {offset : Nat} {tag : Tag} {next : Cursor}
    (found : Cursor.nextTag? ⟨offset, front ++ rest⟩ = some (tag, next))
    (ends : tag.span.stop = offset + width front) :
    next = ⟨offset + width front, rest⟩ ∧
      Cursor.nextTag? ⟨offset, front⟩ = some (tag, ⟨offset + width front, []⟩) := by
  obtain ⟨lead, text, place⟩ := exists_of_nextTag? found
  obtain ⟨site⟩ := Cursor.nextTag?_site found
  have stop := site.next_eq
  have size : width (lead ++ ['>']) = width lead + 1 := by
    rw [width_append]
    rfl
  have whole : front ++ rest = (lead ++ ['>']) ++ next.rest := by simpa using text
  obtain ⟨rfl, behind⟩ := eq_of_width_eq whole (by dsimp only at place; omega)
  have stays : next.rest = [] ++ rest := behind.symm
  have alone := Cursor.nextTag?_of_append ⟨offset, lead ++ ['>']⟩ found stays
  rw [stop, ends] at alone
  refine ⟨?_, alone⟩
  rw [← ends, ← stop, behind]

/-- A tag in front of one that ends at a cut is found without the text behind the cut, and scanning
goes on from the same place. -/
theorem tags_before_cut {offset : Nat} {first tag : Tag} {next : Cursor}
    (found : Cursor.nextTag? ⟨offset, front ++ rest⟩ = some (first, next))
    (member : tag ∈ tags rawTags (resume rawTags first next))
    (ends : tag.span.stop = offset + width front) :
    ∃ start left, resume rawTags first next = ⟨start, left ++ rest⟩ ∧
      start + width left = offset + width front ∧
      tags rawTags ⟨offset, front⟩ = first :: tags rawTags ⟨start, left⟩ := by
  obtain ⟨lead, text, place⟩ := exists_of_nextTag? found
  obtain ⟨site⟩ := Cursor.nextTag?_site found
  obtain ⟨skipped, next_rest, resumes⟩ := resume_skips rawTags first next
  obtain ⟨before, behind, split, stop⟩ := exists_of_mem_tags member
  generalize resumed : resume rawTags first next = onward at next_rest resumes split stop
  have split' : onward.rest = (before ++ ['>']) ++ behind := by simpa using split
  have inner : width (before ++ ['>']) = width before + 1 := by
    rw [width_append]
    rfl
  have outer : width (lead ++ '>' :: (skipped ++ (before ++ ['>']))) =
      width lead + 1 + width skipped + width (before ++ ['>']) := by
    rw [width_append, width_cons, width_append, ← Nat.add_assoc, ← Nat.add_assoc]
    rfl
  -- All of the text up to the `>` of the later tag lies in front of the cut.
  have whole : front ++ rest = (lead ++ '>' :: (skipped ++ (before ++ ['>']))) ++ behind := by
    simpa [next_rest, split'] using text
  dsimp only at place
  obtain ⟨rfl, rfl⟩ := eq_of_width_eq whole (by omega)
  have stays : next.rest = (skipped ++ (before ++ ['>'])) ++ rest := by
    rw [next_rest, split']
    simp
  have next_eq : next = ⟨next.offset, (skipped ++ (before ++ ['>'])) ++ rest⟩ := by
    rw [← stays]
  have alone := Cursor.nextTag?_of_append ⟨offset, _⟩ found stays
  rw [next_eq] at resumed
  have onward_eq :
      (resume rawTags first ⟨next.offset, (skipped ++ (before ++ ['>'])) ++ rest⟩).rest =
      (before ++ ['>']) ++ rest := by
    rw [resumed, split']
  have same := resume_of_append site.named (by simp) onward_eq (by simp)
  rw [resumed] at same
  refine ⟨onward.offset, before ++ ['>'], by rw [← split'], by omega, ?_⟩
  rw [tags_of_some alone, same]

/-- The tags up to a cut are those of the text in front of it, if one of them ends at the cut. -/
theorem tags_cut {offset : Nat} {earlier later : List Tag} {tag : Tag}
    (read : tags rawTags ⟨offset, front ++ rest⟩ = earlier ++ tag :: later)
    (ends : tag.span.stop = offset + width front) :
    tags rawTags ⟨offset, front⟩ = earlier ++ [tag] ∧
      later = tags rawTags (resume rawTags tag ⟨offset + width front, rest⟩) := by
  induction earlier generalizing offset front with
  | nil =>
    obtain ⟨next, found, rfl⟩ := nextTag?_of_tags read
    obtain ⟨rfl, alone⟩ := nextTag?_cut found ends
    obtain ⟨skipped, none, -⟩ := resume_skips rawTags tag ⟨offset + width front, []⟩
    refine ⟨?_, rfl⟩
    rw [tags_of_some alone, tags_of_nil (List.append_eq_nil_iff.1 none.symm).2]
    rfl
  | cons first more ih =>
    obtain ⟨next, found, after⟩ := nextTag?_of_tags read
    have member : tag ∈ tags rawTags (resume rawTags first next) := by
      rw [← after]
      exact List.mem_append_right _ List.mem_cons_self
    obtain ⟨start, left, resumes, size, front_eq⟩ := tags_before_cut found member ends
    rw [resumes] at after
    obtain ⟨cut, later_eq⟩ := ih after.symm (ends.trans size.symm)
    rw [front_eq, cut, later_eq, size]
    exact ⟨rfl, rfl⟩

end SfcIndex.Markup.Region
