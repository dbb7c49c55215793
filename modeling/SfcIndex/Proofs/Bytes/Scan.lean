import SfcIndex.Proofs.Bytes.Tags
import SfcIndex.Proofs.Markup.Scan
import SfcIndex.Proofs.Text.Case
import SfcIndex.Proofs.Text.Checked

/-! # Scanning bytes for tags

The scan from tag to tag by the bytes of a text: it looks for `<`, jumps over comments and over the
content of raw-text elements, and reads a tag where one may stand. It comes to the tags and to the
places that the scan over characters comes to (`Bytes.nextTag?_eq`, `Bytes.skipRaw_eq`).
-/

namespace SfcIndex.Bytes

open Text Markup

/-- The tag whose `<` is at an index. -/
def tagAt? (text : List Char) (less : Nat) : Except Fault (Option ScannedTag) :=
  if (encode text)[less + 1]? = some (byteOf '/') then closingTag? text less
  else openingTag? text less

/-- The next tag at or after an index, and the index after it. -/
def nextTag? (text : List Char) (index : Nat) : Except Fault (Option (ScannedTag × Nat)) :=
  if index < (encode text).length then do
    match (← bytesFrom (encode text) index).findIdx? (· == byteOf '<') with
    | none => return none
    | some skipped =>
      let less := index + skipped
      if (encode ['<', '!', '-', '-']).isPrefixOf (← bytesFrom (encode text) less) then
        match findPart (encode ['-', '-', '>']) (← bytesFrom (encode text) (less + 4)) with
        | none => nextTag? text (encode text).length
        | some body => nextTag? text (less + 4 + body + 3)
      else
        match ← tagAt? text less with
        | some tag => return some (tag, tag.span.stop)
        | none => nextTag? text (less + 1)
  else return none
  termination_by (encode text).length - index
  decreasing_by all_goals omega

/-- A byte with an ASCII capital made small. -/
def lowerByte (byte : UInt8) : UInt8 :=
  if 65 ≤ byte.toNat ∧ byte.toNat ≤ 90 then byte + 32 else byte

/-- Whether a name stands at an index, ignoring ASCII case, with no further name byte. -/
def nameAt (bytes name : List UInt8) (index : Nat) : Bool :=
  let stop := index + name.length
  (stop ≤ bytes.length &&
      ((bytes.drop index).take name.length).map lowerByte == name.map lowerByte) &&
    !bytes[stop]?.any (onBytes isNameChar)

/-- A part is found inside the bytes. -/
theorem lt_of_findPart {part bytes : List UInt8} {index : Nat}
    (found : findPart part bytes = some index) : index < bytes.length := by
  induction bytes generalizing index with
  | nil => cases found
  | cons byte rest ih =>
    rw [findPart] at found
    split at found
    · cases found
      exact Nat.zero_lt_succ _
    · obtain ⟨later, is, rfl⟩ := Option.map_eq_some_iff.1 found
      exact Nat.succ_lt_succ (ih is)

/-- The rest of the bytes is read inside them only. -/
theorem bytesFrom_eq_ok {bytes rest : List UInt8} {index : Nat}
    (found : bytesFrom bytes index = .ok rest) :
    index ≤ bytes.length ∧ rest = bytes.drop index := by
  unfold bytesFrom at found
  split at found
  next inside =>
    cases found
    exact ⟨inside, rfl⟩
  next => cases found

/-- The index of the `</` that may end an element whose content is no markup. -/
def skipRaw (text name : List Char) (index : Nat) : Except Fault Nat :=
  match _taken : bytesFrom (encode text) index with
  | .error fault => .error fault
  | .ok rest =>
    match _found : findPart (encode ['<', '/']) rest with
    | none => .ok (encode text).length
    | some skipped =>
      let less := index + skipped
      if nameAt (encode text) (encode name) (less + 2) then .ok less
      else skipRaw text name (less + 2)
  termination_by width text - index
  decreasing_by
    obtain ⟨-, rfl⟩ := bytesFrom_eq_ok _taken
    have := lt_of_findPart _found
    rw [List.length_drop, length_encode] at this
    omega

section

variable {text rest inside : List Char} {index less : Nat}

/-- The place behind a comment is a place of the text. -/
theorem On.pastComment (on : On text ⟨index, rest⟩) : On text (pastComment index rest) := by
  obtain ⟨skipped, same, place⟩ := pastComment_skips index rest
  exact on.forward same place

/-- A comment goes on to the first `-->`. -/
theorem offset_pastComment (offset : Nat) (text : List Char) :
    (pastComment offset text).offset =
      match before? ['-', '-', '>'] text with
      | none => offset + width text
      | some body => offset + width body + 3 := by
  fun_induction pastComment offset text with
  | case1 offset => rfl
  | case2 offset rest => rfl
  | case3 offset c rest other ih =>
    have missed : ['-', '-', '>'].isPrefixOf (c :: rest) = false := by
      apply Bool.eq_false_iff.2
      intro starts
      obtain ⟨after, same⟩ := List.isPrefixOf_iff_prefix.1 starts
      injection same with first later
      exact other after first.symm later.symm
    rw [ih, before?, missed, if_neg Bool.false_ne_true]
    cases before? ['-', '-', '>'] rest with
    | none => exact Nat.add_assoc ..
    | some body =>
      change offset + c.utf8Size + width body + 3 = offset + width (c :: body) + 3
      rw [width_cons, Nat.add_assoc offset]

/-- The tag that a `<` starts, read from the text after it. -/
def startedTag? (start : Nat) (inside : List Char) : Option (Tag × Cursor) :=
  match inside with
  | '/' :: rest => Markup.closingTag? start rest
  | _ => Markup.openingTag? start inside

/-- At `<`, unless a comment opens, a tag starts or the search goes on behind it. -/
theorem nextTag?_less (comment : ∀ rest, inside ≠ '!' :: '-' :: '-' :: rest) :
    Cursor.nextTag? ⟨less, '<' :: inside⟩ =
      (startedTag? less inside).or (Cursor.nextTag? ⟨less + 1, inside⟩) := by
  by_cases closing : ∃ rest, inside = '/' :: rest
  · obtain ⟨rest, rfl⟩ := closing
    rw [Cursor.nextTag?, startedTag?]
    cases Markup.closingTag? less rest <;> rfl
  · rw [not_exists] at closing
    rw [Cursor.nextTag?_angle comment closing, startedTag?.eq_2 _ _ closing]
    cases Markup.openingTag? less inside <;> rfl

/-- The bytes from `<` on spell the tag that the characters spell. -/
theorem tagAt?_eq (fits : width text ≤ Offset.limit) (on : On text ⟨less, '<' :: inside⟩) :
    tagAt? text less = .ok ((startedTag? less inside).map fun found => scanned found.1) := by
  have next : (encode text)[less + 1]? = some (byteOf '/') ↔ inside.head? = some '/' := by
    have onInside : On text ⟨less + 1, inside⟩ := on.tail
    rw [← head?_encode_eq_some_iff (by decide), ← onInside.getElem?_eq]
  rw [tagAt?]
  by_cases closing : inside.head? = some '/'
  · obtain ⟨rest, rfl⟩ := List.head?_eq_some_iff.1 closing
    rw [if_pos (next.2 closing), closingTag?_eq fits on]
    rfl
  · rw [if_neg (mt next.1 closing), openingTag?_eq fits on, startedTag?]
    rintro rest rfl
    exact closing rfl

/-- The scan goes on where a tag ends. -/
theorem offset_startedTag? {tag : Tag} {after : Cursor}
    (found : startedTag? less inside = some (tag, after)) : after.offset = tag.span.stop := by
  unfold startedTag? at found
  split at found
  next =>
    obtain ⟨site⟩ := closingTag?_site found
    exact site.next_eq
  next =>
    obtain ⟨site⟩ := openingTag?_site found
    exact site.next_eq

variable {front : List Char}

/-- There is no tag where there is no `<`. -/
theorem nextTag?_of_notMem (on : On text ⟨index, rest⟩) (none : '<' ∉ rest) :
    nextTag? text index = .ok Option.none := by
  rw [nextTag?]
  by_cases room : index < (encode text).length
  · rw [if_pos room, on.bytesFrom_eq]
    dsimp only [bind, Except.bind]
    rw [findIdx?_encode_of_notMem (by decide) none]
    rfl
  · rw [if_neg room]
    rfl

/-- What the scan does at the first `<`. -/
theorem nextTag?_of_first (on : On text ⟨index, front ++ '<' :: inside⟩) (first : '<' ∉ front) :
    nextTag? text index =
      (if ['<', '!', '-', '-'].isPrefixOf ('<' :: inside) then do
        match findPart (encode ['-', '-', '>'])
            (← bytesFrom (encode text) (index + width front + 4)) with
        | none => nextTag? text (encode text).length
        | some body => nextTag? text (index + width front + 4 + body + 3)
      else do
        match ← tagAt? text (index + width front) with
        | some tag => return some (tag, tag.span.stop)
        | none => nextTag? text (index + width front + 1)) := by
  have onLess := on.skip
  have room : index < (encode text).length := by
    have size := on.offset_add_width
    have less : '<'.utf8Size = 1 := rfl
    dsimp only at size
    rw [width_append, width_cons, less] at size
    rw [length_encode]
    omega
  rw [nextTag?, if_pos room, on.bytesFrom_eq]
  dsimp only [bind, Except.bind]
  rw [findIdx?_encode_append (by decide) first]
  dsimp only
  rw [onLess.bytesFrom_eq]
  dsimp only
  rw [isPrefixOf_encode (isAscii_of_all rfl)]

/-- A comment that opens first is passed over. -/
theorem nextTag?_of_comment {body : List Char}
    (on : On text ⟨index, front ++ '<' :: '!' :: '-' :: '-' :: body⟩) (first : '<' ∉ front) :
    nextTag? text index = nextTag? text (pastComment (index + width front + 4) body).offset := by
  have onBody : On text ⟨index + width front + 4, body⟩ := on.skip.tail.tail.tail.tail
  have size := onBody.offset_add_width
  have starts : ['<', '!', '-', '-'].isPrefixOf ('<' :: '!' :: '-' :: '-' :: body) = true := rfl
  rw [nextTag?_of_first on first, if_pos starts, onBody.bytesFrom_eq, offset_pastComment]
  dsimp only [bind, Except.bind]
  rw [findPart_encode (isAscii_of_all rfl)]
  cases before? ['-', '-', '>'] body with
  | none =>
    dsimp only [Option.map_none] at size ⊢
    rw [size, length_encode]
  | some comment => rfl

/-- Where no comment opens, the tag at the first `<` is found or the search goes on behind it. -/
theorem nextTag?_of_tag (fits : width text ≤ Offset.limit)
    (on : On text ⟨index, front ++ '<' :: inside⟩) (first : '<' ∉ front)
    (comment : ∀ rest, inside ≠ '!' :: '-' :: '-' :: rest) :
    nextTag? text index =
      match startedTag? (index + width front) inside with
      | some found => .ok (some (scanned found.1, found.2.offset))
      | none => nextTag? text (index + width front + 1) := by
  have plain : ¬ ['<', '!', '-', '-'].isPrefixOf ('<' :: inside) = true := by
    intro starts
    obtain ⟨rest, same⟩ := List.isPrefixOf_iff_prefix.1 starts
    injection same with _ same
    exact comment rest same.symm
  rw [nextTag?_of_first on first, if_neg plain, tagAt?_eq fits on.skip]
  dsimp only [bind, Except.bind]
  cases found : startedTag? (index + width front) inside with
  | none => rfl
  | some tag =>
    dsimp only [Option.map_some]
    rw [offset_startedTag? found]
    rfl

/-- The scan by bytes comes to the tag that the scan over characters comes to. -/
theorem nextTag?_eq (fits : width text ≤ Offset.limit) (on : On text ⟨index, rest⟩) :
    nextTag? text index = .ok
      ((Cursor.nextTag? ⟨index, rest⟩).map fun found => (scanned found.1, found.2.offset)) := by
  -- A comment is jumped over, so the induction is on how much text is left.
  induction size : rest.length using Nat.strongRecOn generalizing rest index with
  | ind length ih =>
    subst size
    by_cases angle : '<' ∈ rest
    · obtain ⟨front, inside, rfl, first⟩ := List.eq_append_cons_of_mem angle
      rw [Cursor.nextTag?_text first]
      by_cases comment : ∃ body, inside = '!' :: '-' :: '-' :: body
      · obtain ⟨body, rfl⟩ := comment
        have onBody : On text ⟨index + width front + 4, body⟩ := on.skip.tail.tail.tail.tail
        have shorter := length_pastComment_le (index + width front + 4) body
        rw [nextTag?_of_comment on first, Cursor.nextTag?]
        apply ih _ _ onBody.pastComment rfl
        simp only [List.length_append, List.length_cons]
        omega
      · rw [not_exists] at comment
        rw [nextTag?_of_tag fits on first comment, nextTag?_less comment]
        cases startedTag? (index + width front) inside with
        | some found => rfl
        | none =>
          apply ih _ _ on.skip.tail rfl
          simp only [List.length_append, List.length_cons]
          omega
    · have missed := Cursor.nextTag?_text angle index []
      rw [List.append_nil, Cursor.nextTag?.eq_1] at missed
      rw [nextTag?_of_notMem on angle, missed]
      rfl

end

/-- Lowering a character keeps it on its side of 128. -/
theorem isAscii_toLower {c : Char} : IsAscii c.toLower ↔ IsAscii c := by
  have value := toNat_toLower c
  unfold IsAscii
  split at value <;> omega

/-- Lowering a byte lowers the character below 128 that it is. -/
theorem lowerByte_byteOf {c : Char} (ascii : IsAscii c) :
    lowerByte (byteOf c) = byteOf c.toLower := by
  apply UInt8.toNat.inj
  have small : c.toNat < 128 := ascii
  rw [lowerByte, toNat_byteOf ascii, toNat_byteOf (isAscii_toLower.2 ascii), toNat_toLower]
  by_cases upper : 65 ≤ c.toNat ∧ c.toNat ≤ 90
  · rw [if_pos upper, if_pos upper, UInt8.toNat_add, toNat_byteOf ascii]
    change (c.toNat + 32) % 256 = c.toNat + 32
    omega
  · rw [if_neg upper, if_neg upper, toNat_byteOf ascii]

/-- A character from 128 on is not lowered. -/
theorem toLower_of_other {c : Char} (other : ¬ IsAscii c) : c.toLower = c := by
  apply Char.toNat_inj.1
  have large : ¬ c.toNat < 128 := other
  rw [toNat_toLower, if_neg (by omega)]

/-- The bytes of a text with small letters are its bytes with small letters. -/
theorem map_lowerByte_encode (text : List Char) :
    (encode text).map lowerByte = encode (asciiFold text) := by
  induction text with
  | nil => rfl
  | cons c rest ih =>
    rw [asciiFold_cons]
    by_cases ascii : IsAscii c
    · rw [encode_cons_ascii ascii, encode_cons_ascii (isAscii_toLower.2 ascii), List.map_cons,
        lowerByte_byteOf ascii, ih]
    · have kept : (String.utf8EncodeChar c).map lowerByte = String.utf8EncodeChar c := by
        refine (List.map_congr_left ?_).trans (List.map_id _)
        intro byte member
        have large := le_of_mem_utf8EncodeChar ascii member
        exact if_neg (by omega)
      rw [encode_cons, encode_cons, toLower_of_other ascii, List.map_append, kept, ih]

/-- A name is found among bytes, ignoring case, where it stands in the text. -/
theorem map_lowerByte_iff (name rest : List Char) :
    ((encode rest).take (encode name).length).map lowerByte = (encode name).map lowerByte ↔
      asciiFold (rest.take name.length) = asciiFold name := by
  have size : (encode name).length = (encode (asciiFold name)).length := by
    rw [length_encode, length_encode, width_asciiFold]
  have long : name.length = (asciiFold name).length := (List.length_map _).symm
  have taken : asciiFold (rest.take name.length) = (asciiFold rest).take name.length :=
    List.map_take
  rw [List.map_take, map_lowerByte_encode, map_lowerByte_encode, size, taken, long, eq_comm,
    ← List.prefix_iff_eq_take, encode_isPrefix_iff, List.prefix_iff_eq_take, eq_comm]

section

variable {text rest name : List Char} {index : Nat}

/-- A name is recognised by its bytes, whatever their case, where no name character follows it. -/
theorem nameAt_eq (on : On text ⟨index, rest⟩) :
    nameAt (encode text) (encode name) index =
      (asciiFold (rest.take name.length) == asciiFold name &&
        !((rest.drop name.length).head?.any isNameChar)) := by
  have drop := on.drop
  dsimp only at drop
  rw [nameAt, drop]
  by_cases same : asciiFold (rest.take name.length) = asciiFold name
  · have found := (map_lowerByte_iff name rest).2 same
    have reach : width (rest.take name.length) = (encode name).length := by
      rw [← width_asciiFold, same, width_asciiFold, length_encode]
    have onTaken := on
    rw [← List.take_append_drop name.length rest] at onTaken
    have onStop := onTaken.skip
    rw [reach] at onStop
    have size := onStop.offset_add_width
    dsimp only at size
    have inside : index + (encode name).length ≤ (encode text).length := by
      rw [length_encode text]
      omega
    rw [found, same, beq_self_eq_true, beq_self_eq_true, decide_eq_true inside,
      onStop.getElem?_eq, head?_encode follows_isNameChar]
    rfl
  · have differs := mt (map_lowerByte_iff name rest).1 same
    rw [beq_eq_false_iff_ne.2 same, beq_eq_false_iff_ne.2 differs, Bool.and_false, Bool.false_and]
    rfl

/-- The search for an end tag goes on at the first `</`. -/
theorem go_of_before? {front : List Char} (found : before? ['<', '/'] rest = some front)
    (name : List Char) (offset : Nat) :
    ∃ after, rest = front ++ '<' :: '/' :: after ∧
      Cursor.skipRaw.go name offset rest =
        Cursor.skipRaw.go name (offset + width front) ('<' :: '/' :: after) := by
  induction rest generalizing front offset with
  | nil => cases found
  | cons c rest ih =>
    rw [before?] at found
    split at found
    next starts =>
      cases found
      obtain ⟨after, same⟩ := List.isPrefixOf_iff_prefix.1 starts
      exact ⟨after, same.symm, by rw [← same]; rfl⟩
    next other =>
      obtain ⟨lead, later, rfl⟩ := Option.map_eq_some_iff.1 found
      obtain ⟨after, same, goes⟩ := ih later (offset + c.utf8Size)
      have unmarked : ∀ more, c :: rest ≠ '<' :: '/' :: more := by
        intro more starts
        exact other (List.isPrefixOf_iff_prefix.2 ⟨more, starts.symm⟩)
      refine ⟨after, by rw [same]; rfl, ?_⟩
      rw [Cursor.skipRaw.go, Cursor.atRawEnd_of_ne unmarked, if_neg Bool.false_ne_true, goes,
        width_cons, Nat.add_assoc]

/-- Without `</` the search for an end tag goes to the end. -/
theorem go_of_none (missed : before? ['<', '/'] rest = none) (name : List Char) (offset : Nat) :
    Cursor.skipRaw.go name offset rest = ⟨offset + width rest, []⟩ := by
  induction rest generalizing offset with
  | nil => rfl
  | cons c rest ih =>
    rw [before?] at missed
    split at missed
    next => cases missed
    next other =>
      have unmarked : ∀ more, c :: rest ≠ '<' :: '/' :: more := by
        intro more starts
        exact other (List.isPrefixOf_iff_prefix.2 ⟨more, starts.symm⟩)
      rw [Cursor.skipRaw.go, Cursor.atRawEnd_of_ne unmarked, if_neg Bool.false_ne_true,
        ih (Option.map_eq_none_iff.1 missed), width_cons, Nat.add_assoc]

/-- The jump over raw text by bytes comes to the place that the one over characters comes to. -/
theorem skipRaw_eq (on : On text ⟨index, rest⟩) :
    skipRaw text name index = .ok (Cursor.skipRaw name ⟨index, rest⟩).offset := by
  change _ = Except.ok (Cursor.skipRaw.go name index rest).offset
  induction size : rest.length using Nat.strongRecOn generalizing rest index with
  | ind length ih =>
    subst size
    have whole := on.offset_add_width
    dsimp only at whole
    rw [skipRaw, on.bytesFrom_eq]
    dsimp only
    rw [findPart_encode (isAscii_of_all rfl)]
    cases found : before? ['<', '/'] rest with
    | none =>
      dsimp only [Option.map_none]
      rw [go_of_none found, length_encode, whole]
    | some front =>
      obtain ⟨after, rfl, goes⟩ := go_of_before? found name index
      have onAfter : On text ⟨index + width front + 2, after⟩ := on.skip.tail.tail
      dsimp only [Option.map_some]
      rw [nameAt_eq onAfter, goes, Cursor.skipRaw.go, Cursor.atRawEnd]
      split
      next => rfl
      next =>
        have slash : Cursor.atRawEnd name ('/' :: after) = false := rfl
        rw [Cursor.skipRaw.go, slash, if_neg Bool.false_ne_true]
        apply ih _ _ onAfter rfl
        simp only [List.length_append, List.length_cons]
        omega

end

section

variable {text : List Char} {index less : Nat} {tag : ScannedTag}

/-- A closing tag ends behind its start. -/
theorem lt_of_closingTag? (found : closingTag? text less = .ok (some tag)) :
    less < tag.span.stop := by
  unfold closingTag? at found
  obtain ⟨named, -, found⟩ := Offset.exists_of_bind found
  obtain ⟨blank, -, found⟩ := Offset.exists_of_bind found
  dsimp only at found
  split at found
  next =>
    obtain ⟨name, -, found⟩ := Offset.exists_of_bind found
    obtain ⟨start, -, found⟩ := Offset.exists_of_bind found
    obtain ⟨close, close_eq, found⟩ := Offset.exists_of_bind found
    obtain ⟨stop, stop_eq, found⟩ := Offset.exists_of_bind found
    obtain ⟨attributes, -, found⟩ := Offset.exists_of_bind found
    cases found
    have := eq_of_toOffset close_eq
    have := eq_of_toOffset stop_eq
    dsimp only
    omega
  next => cases found

/-- A tag is not closed in front of where the search starts. -/
theorem le_of_tagClose? {bytes : List UInt8} {afterEquals : Bool} {close : Nat}
    (found : tagClose? bytes afterEquals index = .ok (some close)) : index ≤ close := by
  fun_induction tagClose? bytes afterEquals index with
  | case1 afterEquals index inside equals quoted blank other =>
    obtain ⟨byte, -, found⟩ := Offset.exists_of_bind found
    split at found
    next =>
      cases found
      exact Nat.le_refl _
    next =>
      split at found
      next => exact Nat.le_of_succ_le (equals found)
      next =>
        split at found
        next =>
          obtain ⟨rest, -, found⟩ := Offset.exists_of_bind found
          split at found
          next => cases found
          next size _ =>
            have := quoted size found
            omega
        next =>
          split at found
          next => exact Nat.le_of_succ_le (blank found)
          next => exact Nat.le_of_succ_le (other found)
  | case2 afterEquals index outside => cases found

/-- An opening tag ends behind its start. -/
theorem lt_of_openingTag? (found : openingTag? text less = .ok (some tag)) :
    less < tag.span.stop := by
  unfold openingTag? at found
  obtain ⟨named, -, found⟩ := Offset.exists_of_bind found
  dsimp only at found
  split at found
  next => cases found
  next =>
    obtain ⟨close?, closes, found⟩ := Offset.exists_of_bind found
    cases close? with
    | none => cases found
    | some close =>
      have := le_of_tagClose? closes
      obtain ⟨ends, -, found⟩ := Offset.exists_of_bind found
      obtain ⟨name, -, found⟩ := Offset.exists_of_bind found
      obtain ⟨start, -, found⟩ := Offset.exists_of_bind found
      obtain ⟨close', close_eq, found⟩ := Offset.exists_of_bind found
      obtain ⟨stop, stop_eq, found⟩ := Offset.exists_of_bind found
      obtain ⟨attributeStart, -, found⟩ := Offset.exists_of_bind found
      obtain ⟨attributeStop, -, found⟩ := Offset.exists_of_bind found
      cases found
      have := eq_of_toOffset close_eq
      have := eq_of_toOffset stop_eq
      dsimp only
      omega

/-- A tag ends behind its start. -/
theorem lt_of_tagAt? (found : tagAt? text less = .ok (some tag)) : less < tag.span.stop := by
  unfold tagAt? at found
  split at found
  next => exact lt_of_closingTag? found
  next => exact lt_of_openingTag? found

/-- The next tag ends behind the place from which it is searched. -/
theorem lt_of_nextTag? {next : Nat} (found : nextTag? text index = .ok (some (tag, next))) :
    index < (encode text).length ∧ index < next := by
  fun_induction nextTag? text index with
  | case1 index inside unended comment later =>
    refine ⟨inside, ?_⟩
    obtain ⟨rest, -, found⟩ := Offset.exists_of_bind found
    split at found
    next => cases found
    next skipped _ =>
      obtain ⟨behind, -, found⟩ := Offset.exists_of_bind found
      split at found
      next =>
        obtain ⟨body, -, found⟩ := Offset.exists_of_bind found
        split at found
        next => exact absurd (unended found).1 (Nat.lt_irrefl _)
        next size _ =>
          have := (comment skipped size found).2
          omega
      next =>
        obtain ⟨tag?, at', found⟩ := Offset.exists_of_bind found
        cases tag? with
        | none =>
          have := (later skipped found).2
          omega
        | some tag =>
          cases found
          have := lt_of_tagAt? at'
          omega
  | case2 index outside => cases found

/-- A jump over raw text goes forward. -/
theorem le_of_skipRaw {name : List Char} {next : Nat} (found : skipRaw text name index = .ok next) :
    index ≤ next := by
  fun_induction skipRaw text name index with
  | case1 index fault taken => cases found
  | case2 index rest taken missed =>
    cases found
    exact (bytesFrom_eq_ok taken).1
  | case3 index rest taken skipped found' less named =>
    have := Except.ok.inj found
    omega
  | case4 index rest taken skipped found' less other ih =>
    have := ih found
    omega

end

end SfcIndex.Bytes
