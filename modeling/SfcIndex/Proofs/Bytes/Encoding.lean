import Mathlib.Data.List.TakeWhile
import SfcIndex.Proofs.Text.Slice
import SfcIndex.Text.Ascii
import SfcIndex.Text.Cursor

/-! # The bytes of a text

Markup is read byte by byte, but all it looks for is ASCII. A byte of a character that is not ASCII
passes no test for an ASCII character, so that a scan over bytes stops between characters, where
the scan over characters does (`Bytes.takeWhile_encode`, `Bytes.findIdx?_encode`,
`Bytes.findPart_encode`).
-/

namespace SfcIndex.Bytes

open Text

/-- The bytes of a text in UTF-8. -/
def encode (text : List Char) : List UInt8 := text.flatMap String.utf8EncodeChar

@[simp] theorem encode_nil : encode [] = [] := rfl

theorem encode_cons (c : Char) (rest : List Char) :
    encode (c :: rest) = String.utf8EncodeChar c ++ encode rest := rfl

@[simp] theorem encode_append (left right : List Char) :
    encode (left ++ right) = encode left ++ encode right :=
  List.flatMap_append

@[simp] theorem length_encode (text : List Char) : (encode text).length = width text := by
  induction text with
  | nil => rfl
  | cons c rest ih => rw [encode_cons, List.length_append, ih, String.length_utf8EncodeChar]; rfl

/-- Whether a character takes one byte. -/
def IsAscii (c : Char) : Prop := c.toNat < 128

instance (c : Char) : Decidable (IsAscii c) := inferInstanceAs (Decidable (_ < _))

/-- The byte of an ASCII character. -/
def byteOf (c : Char) : UInt8 := UInt8.ofNat c.toNat

section Char

variable {c : Char}

/-- The byte of a character below 128 is its code. -/
theorem toNat_byteOf (ascii : IsAscii c) : (byteOf c).toNat = c.toNat := by
  have small : c.toNat < 128 := ascii
  rw [byteOf, UInt8.toNat_ofNat']
  omega

/-- A character below 128 is one byte. -/
theorem utf8EncodeChar_ascii (ascii : IsAscii c) : String.utf8EncodeChar c = [byteOf c] :=
  if_pos (Nat.le_of_lt_succ ascii)

/-- A character below 128 puts its byte in front. -/
theorem encode_cons_ascii (ascii : IsAscii c) (rest : List Char) :
    encode (c :: rest) = byteOf c :: encode rest := by
  rw [encode_cons, utf8EncodeChar_ascii ascii]
  rfl

/-- A character below 128 has the width of one byte. -/
theorem utf8Size_ascii (ascii : IsAscii c) : c.utf8Size = 1 := by
  rw [← String.length_utf8EncodeChar, utf8EncodeChar_ascii ascii]
  rfl

theorem le_toNat_ofNat {value : Nat} (low : 128 ≤ value) (high : value < 256) :
    128 ≤ (UInt8.ofNat value).toNat := by
  rw [UInt8.toNat_ofNat']
  omega

/-- The bytes of a character that is not ASCII are no bytes of ASCII characters. -/
theorem le_of_mem_utf8EncodeChar (other : ¬ IsAscii c) {byte : UInt8}
    (member : byte ∈ String.utf8EncodeChar c) : 128 ≤ byte.toNat := by
  have large : ¬ c.val.toNat ≤ 127 := fun small => other (Nat.lt_succ_of_le small)
  unfold String.utf8EncodeChar at member
  dsimp only at member
  rw [if_neg large] at member
  split at member
  · simp only [List.mem_cons, List.not_mem_nil, or_false] at member
    rcases member with rfl | rfl
    · exact le_toNat_ofNat (by omega) (by omega)
    · exact le_toNat_ofNat (by omega) (by omega)
  · split at member
    · simp only [List.mem_cons, List.not_mem_nil, or_false] at member
      rcases member with rfl | rfl | rfl
      · exact le_toNat_ofNat (by omega) (by omega)
      · exact le_toNat_ofNat (by omega) (by omega)
      · exact le_toNat_ofNat (by omega) (by omega)
    · simp only [List.mem_cons, List.not_mem_nil, or_false] at member
      rcases member with rfl | rfl | rfl | rfl
      · exact le_toNat_ofNat (by omega) (by omega)
      · exact le_toNat_ofNat (by omega) (by omega)
      · exact le_toNat_ofNat (by omega) (by omega)
      · exact le_toNat_ofNat (by omega) (by omega)

/-- A byte from 128 on is that of no character below 128. -/
theorem ne_byteOf_of_large {byte : UInt8} (large : 128 ≤ byte.toNat) (ascii : IsAscii c) :
    byte ≠ byteOf c := by
  rintro rfl
  rw [toNat_byteOf ascii] at large
  exact Nat.not_lt.2 large ascii

/-- No byte of another character is that of a character below 128. -/
theorem ne_byteOf_of_mem {d : Char} (other : ¬ IsAscii c) (ascii : IsAscii d) {byte : UInt8}
    (member : byte ∈ String.utf8EncodeChar c) : byte ≠ byteOf d :=
  ne_byteOf_of_large (le_of_mem_utf8EncodeChar other member) ascii

/-- The bytes of a text start with one of its first character. -/
theorem exists_encode_cons (c : Char) (rest : List Char) :
    ∃ byte more, byte ∈ String.utf8EncodeChar c ∧ encode (c :: rest) = byte :: more := by
  have some : String.utf8EncodeChar c ≠ [] := by
    intro none
    have size := String.length_utf8EncodeChar c
    have := c.utf8Size_pos
    rw [none] at size
    rw [List.length_nil] at size
    omega
  obtain ⟨byte, more, bytes⟩ := List.exists_cons_of_ne_nil some
  refine ⟨byte, more ++ encode rest, ?_, ?_⟩
  · rw [bytes]
    exact List.mem_cons_self
  · rw [encode_cons, bytes]
    rfl

end Char

/-- A test for ASCII characters, made on bytes. -/
def onBytes (test : Char → Bool) (byte : UInt8) : Bool :=
  byte.toNat < 128 && test (Char.ofNat byte.toNat)

/-- A test on bytes that comes out the same for all bytes of a character. -/
def Follows (bytewise : UInt8 → Bool) (test : Char → Bool) : Prop :=
  ∀ c, ∀ byte ∈ String.utf8EncodeChar c, bytewise byte = test c

/-- On the byte of a character below 128 a test says what it says of the character. -/
theorem onBytes_byteOf (test : Char → Bool) {c : Char} (ascii : IsAscii c) :
    onBytes test (byteOf c) = test c := by
  have small : c.toNat < 128 := ascii
  rw [onBytes, toNat_byteOf ascii, decide_eq_true small, Char.ofNat_toNat, Bool.true_and]

/-- On a byte from 128 on a test fails. -/
theorem onBytes_large (test : Char → Bool) {byte : UInt8} (large : 128 ≤ byte.toNat) :
    onBytes test byte = false := by
  rw [onBytes, decide_eq_false (by omega), Bool.false_and]

/-- A test that only characters below 128 pass can be made on bytes. -/
theorem follows_onBytes {test : Char → Bool} (ascii : ∀ c, test c = true → IsAscii c) :
    Follows (onBytes test) test := by
  intro c byte member
  by_cases small : IsAscii c
  · rw [utf8EncodeChar_ascii small] at member
    rw [List.mem_singleton.1 member, onBytes_byteOf test small]
  · have large := le_of_mem_utf8EncodeChar small member
    have fails : test c = false := Bool.eq_false_iff.2 fun passes => small (ascii c passes)
    rw [onBytes_large test large, fails]

/-- Two ASCII characters with the same byte are the same. -/
theorem byteOf_inj {c d : Char} (ascii : IsAscii c) (ascii' : IsAscii d) :
    byteOf c = byteOf d ↔ c = d := by
  constructor
  · intro same
    have value := congrArg UInt8.toNat same
    rw [toNat_byteOf ascii, toNat_byteOf ascii'] at value
    exact Char.toNat_inj.1 value
  · rintro rfl
    rfl

/-- A character below 128 is recognised by its byte. -/
theorem follows_beq {d : Char} (ascii : IsAscii d) : Follows (· == byteOf d) (· == d) := by
  intro c byte member
  by_cases small : IsAscii c
  · rw [utf8EncodeChar_ascii small] at member
    rw [List.mem_singleton.1 member]
    rw [Bool.eq_iff_iff, beq_iff_eq, beq_iff_eq]
    exact byteOf_inj small ascii
  · have differs := ne_byteOf_of_mem small ascii member
    have other : c ≠ d := by
      rintro rfl
      exact small ascii
    exact (beq_eq_false_iff_ne.2 differs).trans (beq_eq_false_iff_ne.2 other).symm

section Follows

variable {bytewise : UInt8 → Bool} {test : Char → Bool} (follows : Follows bytewise test)
include follows

/-- A run of bytes that pass a test is made of the characters that pass it. -/
theorem takeWhile_encode (text : List Char) :
    (encode text).takeWhile bytewise = encode (text.takeWhile test) := by
  induction text with
  | nil => rfl
  | cons c rest ih =>
    rw [encode_cons]
    by_cases passes : test c = true
    · have all : ∀ byte ∈ String.utf8EncodeChar c, bytewise byte = true :=
        fun byte member => (follows c byte member).trans passes
      rw [List.takeWhile_append_of_pos all, ih, List.takeWhile_cons_of_pos passes, encode_cons]
    · obtain ⟨byte, more, member, bytes⟩ := exists_encode_cons c rest
      have fails : ¬ bytewise byte = true := by rwa [follows c byte member]
      rw [← encode_cons, bytes, List.takeWhile_cons_of_neg fails, List.takeWhile_cons_of_neg passes]
      rfl

/-- The first byte that passes a test is the first of the first character that passes it. -/
theorem findIdx?_encode (text : List Char) :
    (encode text).findIdx? bytewise =
      (text.find? test).map fun _ => width (text.takeWhile fun c => !test c) := by
  induction text with
  | nil => rfl
  | cons c rest ih =>
    by_cases passes : test c = true
    · obtain ⟨byte, more, member, bytes⟩ := exists_encode_cons c rest
      have first : bytewise byte = true := (follows c byte member).trans passes
      rw [bytes, List.findIdx?_cons, if_pos first, List.find?_cons_of_pos passes,
        List.takeWhile_cons_of_neg (by simp [passes])]
      rfl
    · have none : (String.utf8EncodeChar c).findIdx? bytewise = none := by
        apply List.findIdx?_eq_none_iff.2
        intro byte member
        rw [follows c byte member]
        exact Bool.eq_false_iff.2 passes
      rw [encode_cons, List.findIdx?_append, none, ih, List.find?_cons_of_neg passes,
        List.takeWhile_cons_of_pos (by simp [passes]), width_cons, String.length_utf8EncodeChar]
      cases rest.find? test with
      | none => rfl
      | some d => simp [Nat.add_comm]

/-- The first byte of a text tells whether its first character passes a test. -/
theorem head?_encode (text : List Char) :
    (encode text).head?.any bytewise = text.head?.any test := by
  cases text with
  | nil => rfl
  | cons c rest =>
    obtain ⟨byte, more, member, bytes⟩ := exists_encode_cons c rest
    rw [bytes]
    exact follows c byte member

end Follows

section Character

variable {d : Char} (ascii : IsAscii d)
include ascii

/-- The first byte is that of a character below 128 when it comes first. -/
theorem head?_encode_eq_some_iff {text : List Char} :
    (encode text).head? = some (byteOf d) ↔ text.head? = some d := by
  have same := head?_encode (follows_beq ascii) text
  rw [Bool.eq_iff_iff, Option.any_eq_true, Option.any_eq_true] at same
  constructor
  · intro first
    obtain ⟨c, is, equal⟩ := same.1 ⟨byteOf d, first, beq_self_eq_true _⟩
    rw [is, eq_of_beq equal]
  · intro first
    obtain ⟨byte, is, equal⟩ := same.2 ⟨d, first, beq_self_eq_true _⟩
    rw [is, eq_of_beq equal]

/-- A character is found behind text that does not hold it. -/
theorem findIdx?_encode_append {front : List Char} (first : d ∉ front) (after : List Char) :
    (encode (front ++ d :: after)).findIdx? (· == byteOf d) = some (width front) := by
  have others : ∀ c ∈ front, (!(c == d)) = true := by
    intro c member
    rw [Bool.not_eq_true', beq_eq_false_iff_ne]
    rintro rfl
    exact first member
  have missed : front.find? (· == d) = none := by
    apply List.find?_eq_none.2
    intro c member
    simpa using others c member
  rw [findIdx?_encode (follows_beq ascii), List.find?_append, missed,
    List.takeWhile_append_of_pos others]
  simp

/-- The byte of a character below 128 is not found when the character is not there. -/
theorem findIdx?_encode_of_notMem {text : List Char} (none : d ∉ text) :
    (encode text).findIdx? (· == byteOf d) = Option.none := by
  have missed : text.find? (· == d) = Option.none := by
    apply List.find?_eq_none.2
    intro c member
    rw [beq_iff_eq]
    rintro rfl
    exact none member
  rw [findIdx?_encode (follows_beq ascii), missed]
  rfl

/-- The bytes of another character hold no byte of a character below 128. -/
theorem count_eq_zero_of_other {c : Char} (other : ¬ IsAscii c) {bytes : List UInt8}
    (part : bytes ⊆ String.utf8EncodeChar c) : bytes.count (byteOf d) = 0 := by
  apply List.count_eq_zero.2
  intro member
  exact ne_byteOf_of_mem other ascii (part member) rfl

/-- A character is among the bytes as often as it is in the text. -/
theorem count_encode (text : List Char) : (encode text).count (byteOf d) = text.count d := by
  induction text with
  | nil => rfl
  | cons c rest ih =>
    by_cases small : IsAscii c
    · have same : (byteOf c == byteOf d) = (c == d) := by
        rw [Bool.eq_iff_iff, beq_iff_eq, beq_iff_eq]
        exact byteOf_inj small ascii
      rw [encode_cons_ascii small, List.count_cons, List.count_cons, ih, same]
    · have differs : c ≠ d := fun same => small (same ▸ ascii)
      rw [encode_cons, List.count_append, count_eq_zero_of_other ascii small (List.Subset.refl _),
        ih, Nat.zero_add, List.count_cons_of_ne differs]

end Character

/-- Which character comes first can be told from the bytes. -/
theorem eq_of_utf8EncodeChar_append {c d : Char} {left right : List UInt8}
    (same : String.utf8EncodeChar c ++ left = String.utf8EncodeChar d ++ right) : c = d := by
  have first := ByteArray.utf8DecodeChar?_utf8EncodeChar_append (b := left.toByteArray) (c := c)
  have second := ByteArray.utf8DecodeChar?_utf8EncodeChar_append (b := right.toByteArray) (c := d)
  rw [← List.toByteArray_append, same, List.toByteArray_append, second] at first
  exact (Option.some.inj first).symm

/-- A text starts with another one exactly when its bytes start with the other's bytes. -/
theorem encode_isPrefix_iff {front text : List Char} :
    encode front <+: encode text ↔ front <+: text := by
  constructor
  · intro starts
    induction front generalizing text with
    | nil => exact List.nil_prefix
    | cons d front ih =>
      obtain ⟨tail, whole⟩ := starts
      rw [encode_cons, List.append_assoc] at whole
      cases text with
      | nil => simp at whole
      | cons c rest =>
        rw [encode_cons] at whole
        obtain rfl := eq_of_utf8EncodeChar_append whole
        exact (List.prefix_cons_inj d).2 (ih ⟨tail, List.append_cancel_left whole⟩)
  · rintro ⟨rest, rfl⟩
    rw [encode_append]
    exact List.prefix_append _ _

/-- The place of the first occurrence of some bytes among others. -/
def findPart (part : List UInt8) : List UInt8 → Option Nat
  | [] => none
  | byte :: rest =>
    if part.isPrefixOf (byte :: rest) then some 0 else (findPart part rest).map (· + 1)

/-- The text before the first occurrence of a part. -/
def before? (part : List Char) : List Char → Option (List Char)
  | [] => none
  | c :: rest =>
    if part.isPrefixOf (c :: rest) then some [] else (before? part rest).map (c :: ·)

theorem isAscii_of_all {text : List Char}
    (all : (text.all fun c => decide (IsAscii c)) = true) : ∀ c ∈ text, IsAscii c :=
  fun c member => of_decide_eq_true (List.all_eq_true.1 all c member)

/-- A text starts with characters below 128 when its bytes start with theirs. -/
theorem isPrefixOf_encode {part : List Char} (ascii : ∀ c ∈ part, IsAscii c) (text : List Char) :
    (encode part).isPrefixOf (encode text) = part.isPrefixOf text := by
  induction part generalizing text with
  | nil => rw [encode_nil, List.isPrefixOf_nil_left, List.isPrefixOf_nil_left]
  | cons d part ih =>
    have small := ascii d List.mem_cons_self
    have later : ∀ c ∈ part, IsAscii c := fun c member => ascii c (List.mem_cons_of_mem _ member)
    rw [encode_cons_ascii small]
    cases text with
    | nil => rfl
    | cons c rest =>
      by_cases short : IsAscii c
      · rw [encode_cons_ascii short, List.isPrefixOf_cons_cons, List.isPrefixOf_cons_cons, ih later]
        congr 1
        rw [Bool.eq_iff_iff, beq_iff_eq, beq_iff_eq]
        exact byteOf_inj small short
      · obtain ⟨byte, more, member, bytes⟩ := exists_encode_cons c rest
        have differs : (byteOf d == byte) = false :=
          beq_eq_false_iff_ne.2 (ne_byteOf_of_mem short small member).symm
        have other : (d == c) = false := by
          rw [beq_eq_false_iff_ne]
          rintro rfl
          exact short small
        rw [bytes, List.isPrefixOf_cons_cons, List.isPrefixOf_cons_cons, differs, other]
        rfl

/-- Inside a character no ASCII part starts. -/
theorem findPart_append {d : Char} {part : List Char} (ascii : IsAscii d) {bytes : List UInt8}
    (others : ∀ byte ∈ bytes, byte ≠ byteOf d) (rest : List UInt8) :
    findPart (encode (d :: part)) (bytes ++ rest) =
      (findPart (encode (d :: part)) rest).map (· + bytes.length) := by
  induction bytes with
  | nil => simp
  | cons byte bytes ih =>
    have differs : (byteOf d == byte) = false :=
      beq_eq_false_iff_ne.2 fun same => others byte List.mem_cons_self same.symm
    have missed : (encode (d :: part)).isPrefixOf (byte :: (bytes ++ rest)) = false := by
      rw [encode_cons_ascii ascii, List.isPrefixOf_cons_cons, differs, Bool.false_and]
    rw [List.cons_append, findPart, if_neg (by simp [missed]),
      ih fun other member => others other (List.mem_cons_of_mem _ member), Option.map_map]
    rfl

/-- An ASCII part is found among the bytes of a text where it stands in the text. -/
theorem findPart_encode {d : Char} {part : List Char} (ascii : ∀ c ∈ d :: part, IsAscii c)
    (text : List Char) :
    findPart (encode (d :: part)) (encode text) = (before? (d :: part) text).map width := by
  have small := ascii d List.mem_cons_self
  induction text with
  | nil => rfl
  | cons c rest ih =>
    rw [before?]
    by_cases starts : (d :: part).isPrefixOf (c :: rest) = true
    · obtain ⟨byte, more, -, bytes⟩ := exists_encode_cons c rest
      rw [if_pos starts, bytes, findPart, ← bytes, isPrefixOf_encode ascii, if_pos starts]
      rfl
    · rw [if_neg starts]
      by_cases short : IsAscii c
      · rw [encode_cons_ascii short, findPart, ← encode_cons_ascii short, isPrefixOf_encode ascii,
          if_neg starts, ih, Option.map_map, Option.map_map]
        congr 1
        funext front
        simp only [Function.comp_apply, width_cons, utf8Size_ascii short]
        omega
      · have others : ∀ byte ∈ String.utf8EncodeChar c, byte ≠ byteOf d :=
          fun byte member => ne_byteOf_of_mem short small member
        rw [encode_cons c, findPart_append small others, ih, String.length_utf8EncodeChar,
          Option.map_map, Option.map_map]
        congr 1
        funext front
        simp only [Function.comp_apply, width_cons]
        omega

end SfcIndex.Bytes
