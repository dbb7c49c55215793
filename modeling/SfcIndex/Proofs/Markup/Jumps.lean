import Mathlib.Order.Bounds.Basic
import SfcIndex.Proofs.Markup.Calls
import SfcIndex.Proofs.Markup.RawText

/-! # Jumps over raw text

Raw text may end where the bytes of a text are `</`, a name in any case and no further name byte
(`Bytes.RawEndAt`). From wherever a scanner is, a jump over raw text takes it to the first such
place, or to the end of the text when there is none, and no tag that starts on the way is given
before or after the jump (`Call.runs_jumps`).
-/

namespace SfcIndex.Bytes

open Text Markup

/-- Letters, digits and `-` by their bytes. -/
def IsNameByte (byte : UInt8) : Prop :=
  (48 ≤ byte.toNat ∧ byte.toNat ≤ 57) ∨ (65 ≤ byte.toNat ∧ byte.toNat ≤ 90) ∨
    (97 ≤ byte.toNat ∧ byte.toNat ≤ 122) ∨ byte.toNat = 45

/-- Some bytes start with a name, ignoring ASCII case, and no name byte follows it. -/
def StartsWithName (name bytes : List UInt8) : Prop :=
  ∃ written after, bytes = written ++ after ∧ written.map lowerByte = name.map lowerByte ∧
    ∀ byte, after.head? = some byte → ¬ IsNameByte byte

/-- The bytes of a text at a place are `</` and a name. -/
def RawEndAt (text name : List Char) (place : Nat) : Prop :=
  ∃ bytes, (encode text).drop place = encode ['<', '/'] ++ bytes ∧
    StartsWithName (encode name) bytes

/-- The first place from `start` on where raw text may end, or the end of the text when there is
none. -/
def FirstRawEnd (text name : List Char) (start stop : Nat) : Prop :=
  IsLeast {place | start ≤ place ∧ RawEndAt text name place} stop ∨
    (∀ place, start ≤ place → ¬ RawEndAt text name place) ∧ stop = width text

/-- A byte passes the test for name characters when it is a name byte. -/
theorem onBytes_isNameChar_iff {byte : UInt8} :
    onBytes isNameChar byte = true ↔ IsNameByte byte := by
  rw [onBytes, Bool.and_eq_true, decide_eq_true_iff, Cursor.isNameChar_iff, IsNameByte]
  by_cases small : byte.toNat < 128
  · have valid : byte.toNat.isValidChar := .inl (by omega)
    have value : (Char.ofNat byte.toNat).toNat = byte.toNat := by
      rw [Char.ofNat, dif_pos valid]
      rfl
    rw [value]
    exact and_iff_right small
  · refine iff_of_false (fun both => small both.1) ?_
    omega

/-- A name ends where no name byte follows. -/
theorem nameEnds_iff {after : List UInt8} :
    (!after.head?.any (onBytes isNameChar)) = true ↔
      ∀ byte, after.head? = some byte → ¬ IsNameByte byte := by
  cases after with
  | nil => simp
  | cons byte rest => simp [← onBytes_isNameChar_iff]

/-- The test for a name at an index. -/
theorem nameAt_iff {bytes name : List UInt8} {index : Nat} (inside : index ≤ bytes.length) :
    nameAt bytes name index = true ↔ StartsWithName name (bytes.drop index) := by
  have next : bytes[index + name.length]? = ((bytes.drop index).drop name.length).head? := by
    rw [List.head?_drop, List.getElem?_drop]
  have size : (bytes.drop index).length = bytes.length - index := List.length_drop
  rw [nameAt, next, Bool.and_eq_true, Bool.and_eq_true, decide_eq_true_iff, beq_iff_eq,
    nameEnds_iff]
  constructor
  · rintro ⟨⟨-, same⟩, ends⟩
    exact ⟨_, _, (List.take_append_drop name.length _).symm, same, ends⟩
  · rintro ⟨written, after, split, same, ends⟩
    have long : written.length = name.length := by
      simpa using congrArg List.length same
    rw [split, List.length_append] at size
    rw [split, ← long, List.take_left, List.drop_left]
    exact ⟨⟨by omega, same⟩, ends⟩

/-- The test on characters and the one on bytes are the same. -/
theorem atRawEnd_iff {name inside : List Char} :
    Cursor.atRawEnd name ('<' :: '/' :: inside) = true ↔
      StartsWithName (encode name) (encode inside) := by
  rw [Cursor.atRawEnd, ← nameAt_eq (.atStart inside), nameAt_iff (Nat.zero_le _)]
  rfl

/-- Raw text may end at the same places by bytes and by characters. -/
theorem rawEndAt_iff {text name : List Char} {place : Nat} :
    RawEndAt text name place ↔
      ∃ rest, On text ⟨place, rest⟩ ∧ Cursor.atRawEnd name rest = true := by
  constructor
  · rintro ⟨bytes, marked, named⟩
    have less : IsAscii '<' := by decide
    have found : (encode text)[place]? = some (byteOf '<') := by
      rw [← List.head?_drop, marked]
      rfl
    obtain ⟨c, rest, on, -⟩ := On.of_byte (follows_beq less)
      (fun c same => by rwa [eq_of_beq same]) found (beq_self_eq_true _)
    -- The two ASCII characters stand at the start of what is left of the text.
    obtain ⟨inside, split⟩ := encode_isPrefix_iff.1 ⟨bytes, marked.symm.trans on.drop⟩
    dsimp only at split
    rw [← split] at on
    have bytes_eq : bytes = encode inside := by
      apply List.append_cancel_left
      rw [← marked, on.drop, encode_append]
    rw [bytes_eq] at named
    exact ⟨_, on, atRawEnd_iff.2 named⟩
  · rintro ⟨rest, on, ends⟩
    have marked : ∃ inside, rest = '<' :: '/' :: inside := by
      by_contra other
      rw [Cursor.atRawEnd_of_ne (not_exists.1 other)] at ends
      cases ends
    obtain ⟨inside, rfl⟩ := marked
    exact ⟨encode inside, on.drop, atRawEnd_iff.1 ends⟩

end SfcIndex.Bytes

namespace SfcIndex.Text.Cursor

open Bytes

/-- Of two places in a text the earlier one reaches the later one. -/
theorem Reaches.of_on {text : List Char} {cursor next : Cursor} (on : On text cursor)
    (on' : On text next) (later : cursor.offset ≤ next.offset) : cursor.Reaches next := by
  obtain ⟨before, whole, place⟩ := on
  obtain ⟨before', whole', place'⟩ := on'
  obtain ⟨skipped, rfl, rest⟩ := exists_of_width_le (whole'.symm.trans whole) (by omega)
  refine ⟨skipped, rest, ?_⟩
  rw [place', place, width_append]

/-- A jump over raw text goes to the first place where the raw text may end. -/
theorem skipRaw_first {text : List Char} {cursor : Cursor} (on : On text cursor)
    (name : List Char) :
    FirstRawEnd text name cursor.offset (cursor.skipRaw name).offset := by
  obtain ⟨content, same, jump, raw⟩ := skipRaw_rawContent name cursor
  have landed : On text (cursor.skipRaw name) := on.forward same jump
  have size := landed.offset_add_width
  have first : ∀ place, cursor.offset ≤ place → RawEndAt text name place →
      (cursor.skipRaw name).offset ≤ place := by
    intro place later ends
    -- An earlier place would be inside the content, where the name does not stand.
    by_contra early
    obtain ⟨rest, at', marked⟩ := rawEndAt_iff.1 ends
    obtain ⟨front, split, offset⟩ := Reaches.of_on on at' later
    dsimp only at split offset
    obtain ⟨back, content_eq, rest_eq⟩ := exists_of_width_le (same.symm.trans split) (by omega)
    have some : back ≠ [] := by
      rintro rfl
      rw [content_eq, List.append_nil] at jump
      omega
    have passed := raw.first front back content_eq some
    rw [← rest_eq, marked] at passed
    cases passed
  rcases raw.ends with none | marked
  · right
    have stop : (cursor.skipRaw name).offset = width text := by
      rwa [none, width_nil, Nat.add_zero] at size
    refine ⟨?_, stop⟩
    intro place later ends
    have past := first place later ends
    obtain ⟨rest, at', marked⟩ := rawEndAt_iff.1 ends
    have size' := at'.offset_add_width
    dsimp only at size'
    obtain rfl : rest = [] := eq_nil_of_width (by omega)
    cases marked
  · left
    refine ⟨⟨by omega, rawEndAt_iff.2 ⟨_, landed, marked⟩⟩, ?_⟩
    rintro place ⟨later, ends⟩
    exact first place later ends

end SfcIndex.Text.Cursor

namespace SfcIndex.Markup.Call

open Text

/-- Calls that are made one part after the other are made together. -/
theorem runs_append (scanner : Scanner) (first second : List Call) :
    runs scanner (first ++ second) = do
      let (tags, middle) ← runs scanner first
      let (more, last) ← runs middle second
      return (tags ++ more, last) := by
  induction first generalizing scanner with
  | nil =>
    change runs scanner second = (runs scanner second).bind _
    cases runs scanner second <;> rfl
  | cons call calls ih =>
    rw [List.cons_append, runs, runs]
    cases call.run scanner with
    | error fault => rfl
    | ok given =>
      change (runs given.2 (calls ++ second)).bind _ = ((runs given.2 calls).bind _).bind _
      rw [ih]
      cases runs given.2 calls with
      | error fault => rfl
      | ok ran =>
        change ((runs ran.2 second).bind _).bind _ = (runs ran.2 second).bind _
        cases runs ran.2 second with
        | error fault => rfl
        | ok last =>
          exact congrArg (fun tags => Except.ok (tags, last.2)) (List.append_assoc ..).symm

/-- Where a jump over the raw text of an element with the given name takes a scanner. -/
structure Lands (text name : List Char) (cursor landed : Cursor) : Prop where
  on : Bytes.On text landed
  first : Bytes.FirstRawEnd text name cursor.offset landed.offset
  /-- The search by bytes, which goes on behind every `</` that it rejects, comes there too. -/
  byBytes : Bytes.skipRaw text name cursor.offset = .ok landed.offset

/-- A jump over raw text goes to the first place where the raw text may end. -/
theorem lands {text : List Char} {cursor : Cursor} (on : Bytes.On text cursor) (name : List Char) :
    Lands text name cursor (cursor.skipRaw name) := by
  obtain ⟨skipped, same, place⟩ := cursor.skipRaw_skips name
  exact ⟨on.forward same place, Cursor.skipRaw_first on name, Bytes.skipRaw_eq on⟩

/-- From wherever a scanner is, a jump over raw text takes it to the first place where the raw text
may end. In a text that ends below the limit of offsets, whatever is called before the jump and
after it, no tag is given that starts in what is jumped over. -/
theorem runs_jumps {text : List Char} {calls : List Call} {tags : List Tag} {scanner : Scanner}
    (called : runs (.atStart text) calls = .ok (tags, scanner)) (name : List Char) :
    ∃ landed, (Call.skipRaw name).run scanner = .ok (none, landed) ∧
      Lands text name scanner.cursor landed.cursor ∧
      (width text ≤ Offset.limit → ∀ more, ∃ given last,
        runs (.atStart text) (calls ++ .skipRaw name :: more) = .ok (given, last) ∧
          ∀ tag ∈ given, tag.span.start < scanner.cursor.offset ∨
            landed.cursor.offset ≤ tag.span.start) := by
  obtain ⟨cursor, rfl, on⟩ := on_of_runs (.atStart text) called
  refine ⟨⟨text, cursor.skipRaw name⟩, rfl, lands on name, ?_⟩
  intro fits more
  obtain ⟨before, place, ran, first⟩ := exists_runs fits (.atStart text) calls
  cases called.symm.trans ran
  have landed : Bytes.On text (cursor.skipRaw name) := (lands on name).on
  obtain ⟨after, last, ran', later⟩ := exists_runs fits landed more
  refine ⟨tags ++ after, ⟨text, last⟩, ?_, ?_⟩
  · rw [runs_append, called]
    change (runs ⟨text, cursor⟩ (.skipRaw name :: more)).bind _ = _
    change ((runs ⟨text, cursor.skipRaw name⟩ more).bind _).bind _ = _
    rw [ran']
    rfl
  · intro tag member
    rcases List.mem_append.1 member with before | after
    · left
      have nonempty := (first.shaped tag before).nonempty
      have stops := (first.between tag before).2
      dsimp only
      omega
    · right
      exact (later.between tag after).1

/-- Names that go on or break off, and `<` and `</` in front of a name, do not stop a jump. -/
theorem runs_jumps_broken :
    let text := "<a></scripts><</scrip</</Script".toList
    let scanner : Scanner := ⟨text, ⟨3, text.drop 3⟩⟩
    ∃ tags, runs (.atStart text) [.nextTag] = .ok (tags, scanner) ∧
      ∃ landed, (Call.skipRaw "script".toList).run scanner = .ok (none, landed) ∧
        landed.cursor.offset = 23 ∧
        Lands text "script".toList scanner.cursor landed.cursor := by
  intro text scanner
  have called : runs (.atStart text) [.nextTag] =
      .ok ([⟨.opening, "a", ⟨0, 3⟩, ⟨2, 2⟩, []⟩], scanner) := by decide +kernel
  obtain ⟨landed, jumped, lands, -⟩ := runs_jumps called "script".toList
  refine ⟨_, called, landed, jumped, ?_, lands⟩
  cases jumped
  decide

/-- In a text that is too long a tag of the part that was jumped over is given after all: the last
tag is kept as if it ended in that part, and the scanner goes on there. -/
theorem runs_jumps_tooLong :
    let text := "yy<b></x>".toList ++ (letters 4294967286 ++ "<a>".toList)
    ∃ landed given last, (Call.skipRaw ['x']).run (.atStart text) = .ok (none, landed) ∧
      runs (.atStart text) [.skipRaw ['x'], .nextTag, .nextTag, .nextTag] = .ok (given, last) ∧
      ∃ tag ∈ given, tag.span.start < landed.cursor.offset := by
  intro text
  let rest := letters 4294967286 ++ "<a>".toList
  have jumped : (Call.skipRaw ['x']).run (.atStart text) =
      .ok (none, ⟨text, ⟨5, "</x>".toList ++ rest⟩⟩) := rfl
  have first : Call.nextTag.run ⟨text, ⟨5, "</x>".toList ++ rest⟩⟩ =
      .ok (some ⟨.closing, "x", ⟨5, 9⟩, ⟨8, 8⟩, []⟩, ⟨text, ⟨9, rest⟩⟩) :=
    Scanner.nextTag_of_below (Cursor.nextTag?_of_closingTag? rfl rfl) (by decide)
  have found : Cursor.nextTag? ⟨9, rest⟩ = some
      (⟨.opening, "a", ⟨4294967295, 4294967298⟩, ⟨4294967297, 4294967297⟩, []⟩,
        ⟨4294967298, []⟩) := by
    rw [Cursor.nextTag?_letters]
    exact Cursor.nextTag?_of_openingTag? (by decide) rfl
  have second : Call.nextTag.run ⟨text, ⟨9, rest⟩⟩ =
      .ok (some ⟨.opening, "a", ⟨4294967295, 2⟩, ⟨1, 1⟩, []⟩,
        ⟨text, ⟨2, "<b></x>".toList ++ rest⟩⟩) :=
    Scanner.nextTag_of_record found rfl rfl
  have third : Call.nextTag.run ⟨text, ⟨2, "<b></x>".toList ++ rest⟩⟩ =
      .ok (some ⟨.opening, "b", ⟨2, 5⟩, ⟨4, 4⟩, []⟩, ⟨text, ⟨5, "</x>".toList ++ rest⟩⟩) :=
    Scanner.nextTag_of_below (Cursor.nextTag?_of_openingTag? (by decide) rfl) (by decide)
  have called : runs (.atStart text) [.skipRaw ['x'], .nextTag, .nextTag, .nextTag] =
      .ok ([_, _, ⟨.opening, "b", ⟨2, 5⟩, ⟨4, 4⟩, []⟩], _) :=
    runs_cons jumped (runs_cons first (runs_cons second (runs_cons third rfl)))
  exact ⟨_, _, _, jumped, called, _, List.mem_of_getLast? rfl, by decide⟩

end SfcIndex.Markup.Call
