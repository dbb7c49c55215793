import SfcIndex.Proofs.Bytes.Access
import SfcIndex.Proofs.Markup.RawText

/-! # Tags among bytes

Reading one tag by the bytes of a text, with every index and every slice it takes. It gives the tag
that reading by characters gives, and nothing goes wrong on the way (`Bytes.closingTag?_eq`,
`Bytes.openingTag?_eq`).
-/

namespace SfcIndex.Bytes

open Text Markup

/-- A tag as the scanner gives it: the attributes are known by their place only. -/
structure ScannedTag where
  kind : TagKind
  name : String
  span : Span
  attributeSpan : Span
  deriving Repr, DecidableEq

/-- What the scanner gives of a tag. -/
def scanned (tag : Tag) : ScannedTag := ⟨tag.kind, tag.name, tag.span, tag.attributeSpan⟩

@[simp] theorem scanned_kind (tag : Tag) : (scanned tag).kind = tag.kind := rfl

@[simp] theorem scanned_name (tag : Tag) : (scanned tag).name = tag.name := rfl

@[simp] theorem scanned_attributeSpan (tag : Tag) :
    (scanned tag).attributeSpan = tag.attributeSpan := rfl

/-- The closing tag whose `<` is at an index. -/
def closingTag? (text : List Char) (less : Nat) : Except Fault (Option ScannedTag) := do
  let bytes := encode text
  let nameStart := less + 2
  let nameBytes := (← bytesFrom bytes nameStart).takeWhile (onBytes isNameChar)
  let nameStop := nameStart + nameBytes.length
  let blanks := (← bytesFrom bytes nameStop).takeWhile (onBytes isAsciiBlank)
  let close := nameStop + blanks.length
  if bytes[close]? = some (byteOf '>') then
    let name ← textIn text nameStart nameStop
    let span : Span := ⟨← toOffset less, ← sum (← toOffset close) 1⟩
    return some ⟨.closing, String.ofList name, span, .emptyAt (← toOffset nameStop)⟩
  else return none

/-- The index of the `>` that ends an opening tag, searched from an index on. -/
def tagClose? (bytes : List UInt8) (afterEquals : Bool) (index : Nat) :
    Except Fault (Option Nat) :=
  if index < bytes.length then do
    let byte ← byteAt bytes index
    if byte = byteOf '>' then return some index
    else if byte = byteOf '=' then tagClose? bytes true (index + 1)
    else if (byte = byteOf '"' || byte = byteOf '\'') && afterEquals then
      match (← bytesFrom bytes (index + 1)).findIdx? (· == byte) with
      | none => return none
      | some quoted => tagClose? bytes false (index + 1 + quoted + 1)
    else if onBytes isAsciiBlank byte then tagClose? bytes afterEquals (index + 1)
    else tagClose? bytes false (index + 1)
  else return none
  termination_by bytes.length - index

/-- Whether the bytes between two indices end with a `/`. -/
def endsWithSlash (bytes : List UInt8) (start stop : Nat) : Except Fault Bool :=
  if start < stop then do
    let last ← byteAt bytes (← difference stop 1)
    return last == byteOf '/'
  else return false

/-- Whether a tag closes itself, and the index where its attributes end, from the indices of the
end of its name and of its `>`. -/
def tagEnd (text : List Char) (nameStop close : Nat) : Except Fault (Bool × Nat) := do
  let inside ← textIn text nameStop close
  let innerStop := nameStop + width (trimBlankEnd inside)
  if ← endsWithSlash (encode text) nameStop innerStop then return (true, ← difference innerStop 1)
  else return (false, innerStop)

/-- The opening or self-closing tag whose `<` is at an index. -/
def openingTag? (text : List Char) (less : Nat) : Except Fault (Option ScannedTag) := do
  let bytes := encode text
  let nameStart := less + 1
  let nameBytes := (← bytesFrom bytes nameStart).takeWhile (onBytes isNameChar)
  let nameStop := nameStart + nameBytes.length
  let ends := bytes[nameStop]?.any (onBytes fun c => isAsciiBlank c || c = '>' || c = '/')
  if nameStop = nameStart || !ends then return none
  else
    match ← tagClose? bytes false nameStop with
    | none => return none
    | some close =>
      let (closesItself, attributeStop) ← tagEnd text nameStop close
      let name ← textIn text nameStart nameStop
      let span : Span := ⟨← toOffset less, ← sum (← toOffset close) 1⟩
      let attributeSpan : Span := ⟨← toOffset nameStop, ← toOffset attributeStop⟩
      return some
        ⟨if closesItself then .selfClosing else .opening, String.ofList name, span, attributeSpan⟩

/-- The characters of tag names are below 128. -/
theorem isAscii_of_isNameChar {c : Char} (named : isNameChar c = true) : IsAscii c := by
  rw [Cursor.isNameChar_iff] at named
  unfold IsAscii
  omega

/-- The blanks between attributes are below 128. -/
theorem isAscii_of_isAsciiBlank {c : Char} (blank : isAsciiBlank c = true) : IsAscii c := by
  simp only [isAsciiBlank, Bool.or_eq_true, decide_eq_true_iff] at blank
  rcases blank with (((rfl | rfl) | rfl) | rfl) | rfl <;> decide

/-- The characters of tag names are recognised by their bytes. -/
theorem follows_isNameChar : Follows (onBytes isNameChar) isNameChar :=
  follows_onBytes fun _ => isAscii_of_isNameChar

/-- The blanks between attributes are recognised by their bytes. -/
theorem follows_isAsciiBlank : Follows (onBytes isAsciiBlank) isAsciiBlank :=
  follows_onBytes fun _ => isAscii_of_isAsciiBlank

section Tags

variable {text : List Char} (fits : width text ≤ Offset.limit)
include fits

/-- The bytes of a closing tag spell what its characters spell. -/
theorem closingTag?_eq {less : Nat} {inside : List Char}
    (on : On text ⟨less, '<' :: '/' :: inside⟩) :
    closingTag? text less = .ok ((Markup.closingTag? less inside).map fun found =>
      scanned found.1) := by
  have onName : On text ⟨less + 2, inside⟩ := on.tail.tail
  have name := List.takeWhile_append_dropWhile (p := isNameChar) (l := inside)
  have blanks := List.takeWhile_append_dropWhile (p := isAsciiBlank)
    (l := inside.dropWhile isNameChar)
  have onName' := onName
  rw [← name] at onName'
  have onBlanks := onName'.skip
  have onBlanks' := onBlanks
  rw [← blanks] at onBlanks'
  have onClose := onBlanks'.skip
  have size := onClose.offset_add_width
  have below := on.offset_add_width
  dsimp only at size below
  rw [closingTag?, onName.bytesFrom_eq]
  dsimp only [bind, Except.bind]
  rw [takeWhile_encode follows_isNameChar, length_encode, onBlanks.bytesFrom_eq]
  dsimp only
  rw [takeWhile_encode follows_isAsciiBlank, length_encode, onClose.getElem?_eq]
  dsimp only
  unfold Markup.closingTag?
  dsimp only
  split
  next closes =>
    rw [head?_encode_eq_some_iff (by decide)] at closes
    obtain ⟨rest, ends⟩ := List.head?_eq_some_iff.1 closes
    rw [ends] at size ⊢
    have greater : '>'.utf8Size = 1 := rfl
    rw [width_cons, greater] at size
    rw [onName'.textIn_eq, toOffset_eq (by omega), toOffset_eq (by omega)]
    dsimp only
    rw [sum_eq (by omega), toOffset_eq (by omega)]
    rfl
  next other =>
    split
    next rest ends =>
      exact absurd ((head?_encode_eq_some_iff (by decide)).2 (by rw [ends]; rfl)) other
    next => rfl

end Tags

section Close

variable {text rest : List Char} {index : Nat} {afterEquals : Bool}

/-- What the search does with one byte. -/
theorem tagClose?_step {bytes more : List UInt8} {byte : UInt8}
    (drop : bytes.drop index = byte :: more) :
    tagClose? bytes afterEquals index =
      if byte = byteOf '>' then .ok (some index)
      else if byte = byteOf '=' then tagClose? bytes true (index + 1)
      else if (byte = byteOf '"' || byte = byteOf '\'') && afterEquals then
        match more.findIdx? (· == byte) with
        | none => .ok none
        | some quoted => tagClose? bytes false (index + 1 + quoted + 1)
      else if onBytes isAsciiBlank byte then tagClose? bytes afterEquals (index + 1)
      else tagClose? bytes false (index + 1) := by
  have read := byteAt_eq drop
  have inside := lt_of_byteAt read
  have tail : bytesFrom bytes (index + 1) = .ok more := by
    rw [bytesFrom, if_pos (Nat.succ_le_of_lt inside), drop_succ_of_drop drop]
  rw [tagClose?, if_pos inside, read]
  dsimp only [bind, Except.bind]
  rw [tail]
  rfl

/-- Bytes from 128 on do not close a tag. -/
theorem tagClose?_run {bytes tail : List UInt8} {run : List UInt8} (some : run ≠ [])
    (large : ∀ byte ∈ run, 128 ≤ byte.toNat) (drop : bytes.drop index = run ++ tail) :
    tagClose? bytes afterEquals index = tagClose? bytes false (index + run.length) := by
  induction run generalizing index afterEquals with
  | nil => exact absurd rfl some
  | cons byte run ih =>
    have high := large byte List.mem_cons_self
    have differs (c : Char) : IsAscii c → byte ≠ byteOf c := ne_byteOf_of_large high
    have unquoted : ((byte = byteOf '"' || byte = byteOf '\'') && afterEquals) = false := by
      rw [decide_eq_false (differs '"' (by decide)), decide_eq_false (differs '\'' (by decide))]
      rfl
    rw [tagClose?_step drop, if_neg (differs '>' (by decide)), if_neg (differs '=' (by decide)),
      unquoted, if_neg Bool.false_ne_true, onBytes_large _ high, if_neg Bool.false_ne_true]
    by_cases last : run = []
    · rw [last]
      rfl
    · have later : ∀ other ∈ run, 128 ≤ other.toNat :=
        fun other member => large other (List.mem_cons_of_mem _ member)
      rw [ih last later (drop_succ_of_drop drop), List.length_cons, Nat.add_assoc, Nat.add_comm 1]

/-- A quoted value goes on to its quote. -/
theorem splitAtClose?_quoted {quote : Char} {front : List Char} (first : quote ∉ front)
    (after : List Char) :
    splitAtClose? (.quoted quote) (front ++ quote :: after) =
      (splitAtClose? (.outside false) after).map fun parts =>
        (front ++ quote :: parts.1, parts.2) := by
  induction front with
  | nil => simp [splitAtClose?, CloseSearch.endsAt, CloseSearch.step]
  | cons c front ih =>
    have other : c ≠ quote := fun same => first (same ▸ List.mem_cons_self)
    have later := ih fun member => first (List.mem_cons_of_mem _ member)
    simp [splitAtClose?, CloseSearch.endsAt, CloseSearch.step, other, later, Function.comp_def]

/-- A quote that is not closed leaves the tag open. -/
theorem splitAtClose?_unquoted {quote : Char} (none : quote ∉ rest) :
    splitAtClose? (.quoted quote) rest = Option.none := by
  induction rest with
  | nil => rfl
  | cons c rest ih =>
    have other : c ≠ quote := fun same => none (same ▸ List.mem_cons_self)
    have later := ih fun member => none (List.mem_cons_of_mem _ member)
    simp [splitAtClose?, CloseSearch.endsAt, CloseSearch.step, other, later]

/-- What the search for the end of an opening tag does outside of quotes. -/
theorem splitAtClose?_outside (c : Char) (rest : List Char) :
    splitAtClose? (.outside afterEquals) (c :: rest) =
      if c = '>' then some ([], rest)
      else
        (if c = '=' then splitAtClose? (.outside true) rest
          else if (c = '"' || c = '\'') && afterEquals then splitAtClose? (.quoted c) rest
          else if isAsciiBlank c then splitAtClose? (.outside afterEquals) rest
          else splitAtClose? (.outside false) rest).map fun parts => (c :: parts.1, parts.2) := by
  rw [splitAtClose?, CloseSearch.endsAt, CloseSearch.step]
  simp only [decide_eq_true_iff]
  repeat' split
  all_goals rfl

/-- A character from 128 on does not close a tag. -/
theorem splitAtClose?_other {c : Char} (other : ¬ IsAscii c) (rest : List Char) :
    splitAtClose? (.outside afterEquals) (c :: rest) =
      (splitAtClose? (.outside false) rest).map fun parts => (c :: parts.1, parts.2) := by
  have differs (d : Char) (small : IsAscii d) : c ≠ d := fun same => other (same ▸ small)
  have solid : isAsciiBlank c = false :=
    Bool.eq_false_iff.2 fun blank => other (isAscii_of_isAsciiBlank blank)
  have unquoted : ((c = '"' || c = '\'') && afterEquals) = false := by
    rw [decide_eq_false (differs '"' (by decide)), decide_eq_false (differs '\'' (by decide))]
    rfl
  rw [splitAtClose?_outside, if_neg (differs '>' (by decide)), if_neg (differs '=' (by decide)),
    unquoted, if_neg Bool.false_ne_true, solid, if_neg Bool.false_ne_true]

theorem map_width_cons (c : Char) (index : Nat) (parts? : Option (List Char × List Char)) :
    (parts?.map fun parts => (c :: parts.1, parts.2)).map (fun parts => index + width parts.1) =
      parts?.map fun parts => index + c.utf8Size + width parts.1 := by
  rw [Option.map_map]
  congr 1
  funext parts
  exact (Nat.add_assoc _ _ _).symm

/-- The end of an opening tag is found among the bytes where it stands in the text. -/
theorem tagClose?_eq (on : On text ⟨index, rest⟩) :
    tagClose? (encode text) afterEquals index =
      .ok ((splitAtClose? (.outside afterEquals) rest).map fun parts => index + width parts.1) := by
  -- A quoted value is jumped over, so the induction is on how much text is left.
  induction size : rest.length using Nat.strongRecOn generalizing rest index afterEquals with
  | ind length ih =>
    subst size
    have drop := on.drop
    dsimp only at drop
    cases rest with
    | nil =>
      rw [tagClose?, if_neg on.not_lt_of_nil]
      rfl
    | cons c rest =>
      have onRest := on.tail
      have next (after : Bool) :
          tagClose? (encode text) after (index + c.utf8Size) = .ok
            ((splitAtClose? (.outside after) rest).map fun parts =>
              index + c.utf8Size + width parts.1) :=
        ih rest.length (by simp) onRest rfl
      by_cases ascii : IsAscii c
      · have one := utf8Size_ascii ascii
        have same (d : Char) (small : IsAscii d) : byteOf c = byteOf d ↔ c = d :=
          byteOf_inj ascii small
        rw [encode_cons_ascii ascii] at drop
        rw [tagClose?_step drop, onBytes_byteOf isAsciiBlank ascii, ← one, splitAtClose?_outside]
        simp only [same '>' (by decide), same '=' (by decide), same '"' (by decide),
          same '\'' (by decide)]
        by_cases closes : c = '>'
        · rw [if_pos closes, if_pos closes]
          rfl
        rw [if_neg closes, if_neg closes, map_width_cons]
        by_cases equals : c = '='
        · rw [if_pos equals, if_pos equals, next]
        rw [if_neg equals, if_neg equals]
        by_cases quotes : ((c = '"' || c = '\'') && afterEquals) = true
        · rw [if_pos quotes, if_pos quotes]
          by_cases again : c ∈ rest
          · obtain ⟨front, after, rfl, first⟩ := List.eq_append_cons_of_mem again
            have beyond := onRest.skip.tail
            rw [findIdx?_encode_append ascii first, splitAtClose?_quoted first, Option.map_map]
            refine (ih after.length (by simp +arith) beyond rfl).trans ?_
            congr 2
            funext parts
            simp only [Function.comp_apply, width_append, width_cons]
            omega
          · rw [findIdx?_encode_of_notMem ascii again, splitAtClose?_unquoted again]
            rfl
        rw [if_neg quotes, if_neg quotes]
        by_cases blank : isAsciiBlank c = true
        · rw [if_pos blank, if_pos blank, next]
        · rw [if_neg blank, if_neg blank, next]
      · rw [encode_cons] at drop
        rw [tagClose?_run (by simp [String.utf8EncodeChar_ne_nil])
            (fun _ => le_of_mem_utf8EncodeChar ascii) drop,
          String.length_utf8EncodeChar, next, splitAtClose?_other ascii, map_width_cons]

end Close

/-- A slash at the end of a part is recognised by its byte. -/
theorem endsWithSlash_eq {text part rest : List Char} {start : Nat}
    (on : On text ⟨start, part ++ rest⟩) :
    endsWithSlash (encode text) start (start + width part) =
      .ok (part.getLast? = some '/' : Bool) := by
  rcases List.eq_nil_or_concat part with rfl | ⟨front, last, rfl⟩
  · rw [endsWithSlash, if_neg (by simp)]
    rfl
  · have onLast : On text ⟨start + width front, last :: rest⟩ := by
      rw [List.concat_eq_append, List.append_assoc] at on
      exact on.skip
    obtain ⟨byte, member, found⟩ := onLast.exists_lastByte
    have positive := last.utf8Size_pos
    have stop : start + width (front.concat last) = start + width front + last.utf8Size := by
      simp [Nat.add_assoc]
    have same : (byte == byteOf '/') = (last == '/') := follows_beq (by decide) last byte member
    rw [endsWithSlash, stop, if_pos (by omega), difference_eq (by omega)]
    dsimp only [bind, Except.bind]
    rw [found]
    dsimp only
    rw [same]
    simp [pure, Except.pure, beq_eq_decide]

/-- The end of a tag name is recognised by the next byte. -/
theorem endsName_eq (text : List Char) :
    (encode text).head?.any (onBytes fun c => isAsciiBlank c || c = '>' || c = '/') =
      endsName text := by
  rw [head?_encode (follows_onBytes _)]
  · cases text <;> rfl
  · intro c ends
    simp only [Bool.or_eq_true, decide_eq_true_iff] at ends
    rcases ends with (blank | rfl) | rfl
    · exact isAscii_of_isAsciiBlank blank
    · decide
    · decide

/-- The bytes in front of the end of a tag tell what its characters tell. -/
theorem tagEnd_eq {text inside rest : List Char} {nameStop : Nat}
    (on : On text ⟨nameStop, inside ++ rest⟩) :
    tagEnd text nameStop (nameStop + width inside) = .ok
      (decide ((trimBlankEnd inside).getLast? = some '/'), nameStop +
        width (if (trimBlankEnd inside).getLast? = some '/' then (trimBlankEnd inside).dropLast
          else trimBlankEnd inside)) := by
  obtain ⟨blanks, trimmed, -⟩ := trimBlankEnd_begins inside
  have onTrimmed : On text ⟨nameStop, trimBlankEnd inside ++ (blanks ++ rest)⟩ := by
    rwa [← List.append_assoc, trimmed]
  rw [tagEnd, on.textIn_eq]
  dsimp only [bind, Except.bind]
  rw [endsWithSlash_eq onTrimmed]
  dsimp only
  by_cases closes : (trimBlankEnd inside).getLast? = some '/'
  · obtain ⟨front, ends⟩ := List.getLast?_eq_some_iff.1 closes
    have size : width (trimBlankEnd inside) = width (trimBlankEnd inside).dropLast + 1 := by
      rw [ends, List.dropLast_concat, width_append]
      rfl
    rw [if_pos (decide_eq_true closes), if_pos closes, difference_eq (by omega), size,
      decide_eq_true closes]
    rfl
  · rw [if_neg (by simpa using closes), if_neg closes, decide_eq_false closes]
    rfl

/-- The bytes of an opening tag spell what its characters spell. -/
theorem openingTag?_eq {text inside : List Char} {less : Nat} (fits : width text ≤ Offset.limit)
    (on : On text ⟨less, '<' :: inside⟩) :
    openingTag? text less = .ok ((Markup.openingTag? less inside).map fun found =>
      scanned found.1) := by
  have onInside : On text ⟨less + 1, inside⟩ := on.tail
  have onName := onInside
  rw [← List.takeWhile_append_dropWhile (p := isNameChar) (l := inside)] at onName
  have onAfter := onName.skip
  have unnamed : (less + 1 + width (inside.takeWhile isNameChar) = less + 1 : Bool) =
      (inside.takeWhile isNameChar).isEmpty := by
    rw [Bool.eq_iff_iff, decide_eq_true_iff, List.isEmpty_iff]
    constructor
    · intro same
      cases name : inside.takeWhile isNameChar with
      | nil => rfl
      | cons c rest =>
        have positive := c.utf8Size_pos
        rw [name, width_cons] at same
        omega
    · intro none
      rw [none]
      rfl
  rw [openingTag?, onInside.bytesFrom_eq]
  dsimp only [bind, Except.bind]
  rw [takeWhile_encode follows_isNameChar, length_encode, onAfter.getElem?_eq, endsName_eq,
    unnamed]
  unfold Markup.openingTag?
  dsimp only
  split
  · rfl
  rw [tagClose?_eq onAfter]
  dsimp only
  cases closes : splitAtClose? (.outside false) (inside.dropWhile isNameChar) with
  | none => rfl
  | some parts =>
    obtain ⟨written, rest⟩ := parts
    have onWritten := onAfter
    rw [eq_of_splitAtClose? closes] at onWritten
    obtain ⟨tail, same, -⟩ := attributes_begin written
    have inner := congrArg width same
    have size := onWritten.skip.offset_add_width
    have greater : '>'.utf8Size = 1 := rfl
    rw [width_append] at inner
    dsimp only at size
    rw [width_cons, greater] at size
    dsimp only [Option.map_some]
    rw [tagEnd_eq onWritten]
    dsimp only
    rw [onName.textIn_eq, toOffset_eq (by omega), toOffset_eq (by omega)]
    dsimp only
    rw [sum_eq (by omega), toOffset_eq (by omega), toOffset_eq (by omega)]
    simp [scanned, pure, Except.pure]

end SfcIndex.Bytes
