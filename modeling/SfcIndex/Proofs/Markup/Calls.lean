import SfcIndex.Proofs.Markup.LongText
import SfcIndex.Proofs.Markup.Scanner
import SfcIndex.Proofs.Markup.Written

/-! # Calls to the scanner

A scanner is asked for the next tag, or is told to jump over raw text, in any order and with any
names. Below the limit of offsets a call leaves it at the same place of the text or at a later one
(`Call.exists_run`), so the tags of a whole run come one behind the other and are all written in the
text (`Call.runs_forward`).
-/

namespace SfcIndex.Markup

open Text

/-- What a scanner can be asked to do. -/
inductive Call where
  | nextTag
  | skipRaw (name : List Char)
  deriving Repr, DecidableEq

namespace Call

/-- The tag that a call gives, if any, and the scanner after it. -/
def run (scanner : Scanner) : Call → Except OffsetError (Option Tag × Scanner)
  | .nextTag => scanner.nextTag
  | .skipRaw name => .ok (none, scanner.skipRaw name)

/-- The tags that some calls give, and the scanner after the last of them. -/
def runs (scanner : Scanner) : List Call → Except OffsetError (List Tag × Scanner)
  | [] => .ok ([], scanner)
  | call :: more => do
    let (found, next) ← call.run scanner
    let (tags, last) ← runs next more
    return (found.toList ++ tags, last)

/-- What a scanner has done between two places of a text: the tags it has given are between the two
places, one behind the other. -/
structure Ran (text : List Char) (cursor : Cursor) (tags : List Tag) (last : Cursor) : Prop where
  reaches : cursor.Reaches last
  shaped : ∀ tag ∈ tags, tag.Shaped text
  between : ∀ tag ∈ tags, cursor.offset ≤ tag.span.start ∧ tag.span.stop ≤ last.offset
  apart : tags.Pairwise fun first second => first.span.stop ≤ second.span.start

namespace Ran

variable {text : List Char} {cursor middle last : Cursor} {tags more : List Tag}

/-- Going on without a tag. -/
theorem silent (reaches : cursor.Reaches last) : Ran text cursor [] last :=
  ⟨reaches, by simp, by simp, .nil⟩

/-- Two parts of a run make up one. -/
theorem append (first : Ran text cursor tags middle) (second : Ran text middle more last) :
    Ran text cursor (tags ++ more) last := by
  have ahead := first.reaches.offset_le
  have behind := second.reaches.offset_le
  refine ⟨first.reaches.trans second.reaches, ?_, ?_, ?_⟩
  · intro tag member
    rcases List.mem_append.1 member with member | member
    · exact first.shaped tag member
    · exact second.shaped tag member
  · intro tag member
    rcases List.mem_append.1 member with member | member
    · obtain ⟨after, before⟩ := first.between tag member
      exact ⟨after, Nat.le_trans before behind⟩
    · obtain ⟨after, before⟩ := second.between tag member
      exact ⟨Nat.le_trans ahead after, before⟩
  · refine List.pairwise_append.2 ⟨first.apart, second.apart, ?_⟩
    intro tag member tag' member'
    exact Nat.le_trans (first.between tag member).2 (second.between tag' member').1

end Ran

variable {text : List Char} {cursor : Cursor}

/-- A search that comes to a tag stops behind it. -/
theorem ran_of_nextTag? {next : Cursor} {tag : Tag} (on : Bytes.On text cursor)
    (found : cursor.nextTag? = some (tag, next)) : Ran text cursor [tag] next := by
  obtain ⟨start, blanks, written, reaches, stops, -⟩ := Cursor.exists_written found
  have past : (⟨start, tag.render blanks ++ next.rest⟩ : Cursor).Reaches next := by
    refine ⟨tag.render blanks, rfl, ?_⟩
    rw [stops, written.span_eq]
  refine ⟨reaches.trans past, ?_, ?_, by simp⟩
  · intro tag' member
    rw [List.mem_singleton.1 member]
    exact written.shaped (reaches.on on)
  · intro tag' member
    rw [List.mem_singleton.1 member]
    refine ⟨?_, stops.ge⟩
    rw [written.span_eq]
    exact reaches.offset_le

/-- A call leaves the scanner in the text. -/
theorem on_of_run {call : Call} {found : Option Tag} {next : Scanner} (on : Bytes.On text cursor)
    (called : call.run ⟨text, cursor⟩ = .ok (found, next)) :
    ∃ place, next = ⟨text, place⟩ ∧ Bytes.On text place := by
  cases call with
  | skipRaw name =>
    cases called
    obtain ⟨skipped, same, place⟩ := cursor.skipRaw_skips name
    exact ⟨_, rfl, on.forward same place⟩
  | nextTag =>
    cases found with
    | some tag =>
      obtain ⟨_, _, place, -, -, same, on'⟩ := Scanner.exists_found on called
      exact ⟨place, same, on'⟩
    | none =>
      cases read : cursor.nextTag? with
      | none =>
        cases called.symm.trans (Scanner.nextTag_of_none read)
        exact ⟨_, rfl, (Cursor.reaches_searched (.refl cursor) (.refl cursor)).on on⟩
      | some reading =>
        rw [run, Scanner.nextTag, read] at called
        obtain ⟨kept, -, same⟩ := Offset.exists_of_bind called
        cases same

/-- All calls together leave the scanner in the text. -/
theorem on_of_runs {calls : List Call} {tags : List Tag} {last : Scanner}
    (on : Bytes.On text cursor) (called : runs ⟨text, cursor⟩ calls = .ok (tags, last)) :
    ∃ place, last = ⟨text, place⟩ ∧ Bytes.On text place := by
  induction calls generalizing cursor tags with
  | nil =>
    cases called
    exact ⟨cursor, rfl, on⟩
  | cons call more ih =>
    obtain ⟨⟨found, next⟩, first, later⟩ := Offset.exists_of_bind called
    obtain ⟨⟨given, after⟩, called', same⟩ := Offset.exists_of_bind later
    cases same
    obtain ⟨place, rfl, on'⟩ := on_of_run on first
    exact ih on' called'

/-- A call and those after it give what they give one after the other. -/
theorem runs_cons {call : Call} {more : List Call} {scanner next last : Scanner}
    {found : Option Tag} {tags : List Tag} (given : call.run scanner = .ok (found, next))
    (later : runs next more = .ok (tags, last)) :
    runs scanner (call :: more) = .ok (found.toList ++ tags, last) := by
  rw [runs, given]
  change (runs next more).bind _ = _
  rw [later]
  rfl

/-- Below the limit of offsets one call goes forward. -/
theorem exists_run (fits : width text ≤ Offset.limit) (on : Bytes.On text cursor) (call : Call) :
    ∃ found next, call.run ⟨text, cursor⟩ = .ok (found, ⟨text, next⟩) ∧
      Ran text cursor found.toList next := by
  have below : cursor.offset + width cursor.rest ≤ Offset.limit := by
    rwa [on.offset_add_width]
  cases call with
  | skipRaw name => exact ⟨none, _, rfl, .silent (cursor.skipRaw_skips name)⟩
  | nextTag =>
    cases found : cursor.nextTag? with
    | none =>
      exact ⟨none, _, Scanner.nextTag_of_none found,
        .silent (Cursor.reaches_searched (.refl cursor) (.refl cursor))⟩
    | some reading =>
      exact ⟨some reading.1, reading.2, Scanner.nextTag_of_some below found,
        ran_of_nextTag? on found⟩

/-- Below the limit of offsets all calls together go forward. -/
theorem exists_runs (fits : width text ≤ Offset.limit) (on : Bytes.On text cursor)
    (calls : List Call) :
    ∃ tags last, runs ⟨text, cursor⟩ calls = .ok (tags, ⟨text, last⟩) ∧
      Ran text cursor tags last := by
  induction calls generalizing cursor with
  | nil => exact ⟨[], cursor, rfl, .silent (.refl cursor)⟩
  | cons call more ih =>
    obtain ⟨found, next, called, first⟩ := exists_run fits on call
    obtain ⟨tags, last, called', later⟩ := ih (first.reaches.on on)
    exact ⟨found.toList ++ tags, last, runs_cons called called', first.append later⟩

/-- For every text that ends below the limit of offsets and all calls: each call gives an answer,
the scanner is then in the text, and no further call takes it back. The tags that it has given are
in the text with their parts, and each of them starts behind the one before it or where that one
ends. The scan by bytes comes to the same tags and places and reads nothing outside of the text. -/
theorem runs_forward {text : List Char} (fits : width text ≤ Offset.limit) (calls : List Call) :
    ∃ tags last, runs (.atStart text) calls = .ok (tags, last) ∧
      (last.cursor.offset ≤ width text ∧ ∀ call : Call, ∃ found next,
        call.run last = .ok (found, next) ∧ last.cursor.offset ≤ next.cursor.offset) ∧
      (∀ tag ∈ tags, tag.Shaped text) ∧
      tags.Pairwise (fun first second => first.span.stop ≤ second.span.start) ∧
      (∃ found next, last.nextTag = .ok (found, next) ∧
        Bytes.nextTag? text last.cursor.offset =
          .ok (found.map fun tag => (Bytes.scanned tag, next.cursor.offset))) ∧
      ∀ name, Bytes.skipRaw text name last.cursor.offset =
        .ok (last.skipRaw name).cursor.offset := by
  obtain ⟨tags, last, called, ran⟩ := exists_runs fits (.atStart text) calls
  have on : Bytes.On text last := ran.reaches.on (.atStart text)
  have size := on.offset_add_width
  refine ⟨tags, ⟨text, last⟩, called, ⟨?_, ?_⟩, ran.shaped, ran.apart, ?_, ?_⟩
  · dsimp only
    omega
  · intro call
    obtain ⟨found, next, given, forward⟩ := exists_run fits on call
    exact ⟨found, _, given, forward.reaches.offset_le⟩
  · rw [Bytes.nextTag?_eq fits on]
    cases found : last.nextTag? with
    | none => exact ⟨none, _, Scanner.nextTag_of_none found, rfl⟩
    | some reading =>
      exact ⟨some reading.1, _, Scanner.nextTag_of_some (by omega) found, rfl⟩
  · exact fun name => Bytes.skipRaw_eq on

/-- The tag in the content of a script is passed over and the one in a comment too, the `<` that
starts no tag is left behind, and a jump to a name that nothing closes goes to the end. -/
theorem runs_forward_mixed :
    let text := "<script a='é>'><b></Script ><!-- <i> --> 1 < 2 <br / >".toList
    let calls := [.nextTag, .skipRaw "script".toList, .nextTag, .nextTag, .skipRaw "é".toList]
    width text ≤ Offset.limit ∧ ∃ tags last, runs (.atStart text) calls = .ok (tags, last) ∧
      (tags.map Tag.name = ["script", "Script", "br"] ∧ last.cursor.offset = width text) ∧
      (∀ tag ∈ tags, tag.Shaped text) ∧
      tags.Pairwise (fun first second => first.span.stop ≤ second.span.start) := by
  intro text calls
  have fits : width text ≤ Offset.limit := by decide +kernel
  have known : (runs (.atStart text) calls).toOption.map (fun ran =>
      (ran.1.map Tag.name, ran.2.cursor.offset)) =
        some (["script", "Script", "br"], width text) := by decide +kernel
  obtain ⟨tags, last, called, -, shaped, apart, -⟩ := runs_forward fits calls
  rw [called] at known
  obtain ⟨names, stops⟩ := Prod.mk.inj (Option.some.inj known)
  exact ⟨fits, tags, last, called, ⟨names, stops⟩, shaped, apart⟩

/-- In a text that is too long the second call goes back: the tag that it gives starts inside the
one that was given before. -/
theorem runs_forward_tooLong :
    ∃ first second middle last, runs (.atStart backText) [.nextTag] = .ok ([first], middle) ∧
      Call.nextTag.run middle = .ok (some second, last) ∧
      last.cursor.offset < middle.cursor.offset ∧ second.span.start < first.span.stop := by
  have given : Call.nextTag.run (.atStart backText) = _ := nextTag_backText
  have called : runs (.atStart backText) [.nextTag] = .ok ([_], _) := runs_cons given rfl
  exact ⟨_, _, _, _, called, nextTag_backText_back, by decide, by decide⟩

end Call

end SfcIndex.Markup
