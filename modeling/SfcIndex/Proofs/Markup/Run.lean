import Mathlib.Data.List.Induction
import SfcIndex.Proofs.Markup.Layout

/-! # Reading a text tag by tag

`Region.Run` holds of the states that the reading of a text goes through: the tags found so far, the
tree under construction and the scanner. Every text that can be read has a run to its end
(`Region.exists_run`). A `Region.Pass` goes through the text with places of any size; below the
limit of offsets the two are the same (`Region.run_iff`).
-/

namespace SfcIndex.Markup

open Text

namespace Region

/-- The states while a text is read, each with the tags found so far. -/
inductive Run (rawTags : List String) (text : List Char) : List Tag → Builder → Scanner → Prop
  | start : Run rawTags text [] .start (.atStart text)
  | step {earlier : List Tag} {builder grown : Builder} {scanner next : Scanner} {tag : Tag}
      (run : Run rawTags text earlier builder scanner)
      (found : scanner.nextTag = .ok (some tag, next)) (added : builder.addTag tag = .ok grown) :
      Run rawTags text (earlier ++ [tag]) grown
        { next with cursor := resume rawTags tag next.cursor }

variable {rawTags : List String} {text : List Char} {earlier : List Tag} {builder : Builder}
  {cursor : Cursor} {scanner : Scanner}

/-- What holds where no tag is left, and before a tag when it holds after it, holds wherever reading
gives a tree. -/
theorem readTags_induction {motive : Builder → Scanner → Builder → Prop}
    (done : ∀ builder scanner after, scanner.nextTag = .ok (none, after) →
      motive builder scanner builder)
    (more : ∀ builder scanner tag next grown last, scanner.nextTag = .ok (some tag, next) →
      builder.addTag tag = .ok grown →
      motive grown { next with cursor := resume rawTags tag next.cursor } last →
      motive builder scanner last)
    {last : Builder} (read : Builder.readTags rawTags builder scanner = some (.ok last)) :
    motive builder scanner last := by
  refine Builder.readTags.partial_correctness rawTags
    (fun builder scanner result => ∀ last, result = .ok last → motive builder scanner last)
    ?_ builder scanner _ read last rfl
  intro readOn later builder scanner result reads last is
  subst is
  split at reads
  next => cases reads
  next after found =>
    cases reads
    exact done builder scanner after found
  next tag next found =>
    split at reads
    next => cases reads
    next grown added => exact more _ _ _ _ _ _ found added (later _ _ _ reads last rfl)

/-- Reading on from a state of a run reaches the end of the text. -/
theorem Run.exists_last (run : Run rawTags text earlier builder scanner) {last : Builder}
    (read : Builder.readTags rawTags builder scanner = some (.ok last)) :
    ∃ tags stop after, Run rawTags text tags last stop ∧ stop.nextTag = .ok (none, after) := by
  refine readTags_induction (motive := fun builder scanner last =>
    ∀ earlier, Run rawTags text earlier builder scanner →
      ∃ tags stop after, Run rawTags text tags last stop ∧ stop.nextTag = .ok (none, after))
    ?_ ?_ read earlier run
  · intro builder scanner after none earlier run
    exact ⟨earlier, scanner, after, run, none⟩
  · intro builder scanner tag next grown last found added later earlier run
    exact later _ (run.step found added)

/-- A text that can be read has a run to its end. -/
theorem exists_run {document : Region} (parsed : parse rawTags text = .ok document) :
    ∃ tags last stop after, Run rawTags text tags last stop ∧
      stop.nextTag = .ok (none, after) ∧ document = last.finish (Offset.cut (width text)) := by
  obtain ⟨last, read, finished⟩ := Offset.exists_of_bind parsed
  have returns : Builder.readTags rawTags .start (.atStart text) = some (.ok last) := by
    cases result : Builder.readTags rawTags .start (.atStart text) with
    | none =>
      rw [result] at read
      cases read
    | some outcome =>
      rw [result] at read
      exact congrArg some read
  obtain ⟨tags, stop, after, run, none⟩ := Run.start.exists_last returns
  cases finished
  exact ⟨tags, last, stop, after, run, none, rfl⟩

/-- The tree of a run is grown from its tags. -/
theorem Run.builder_eq (run : Run rawTags text earlier builder scanner) :
    builder = earlier.foldl Builder.grow .start := by
  induction run with
  | start => rfl
  | step _ _ added ih =>
    rw [List.foldl_append, ← ih]
    exact Builder.eq_grow_of_addTag added

/-- The scanner of a run is in the text. -/
theorem Run.exists_on (run : Run rawTags text earlier builder scanner) :
    ∃ cursor, scanner = ⟨text, cursor⟩ ∧ Bytes.On text cursor := by
  induction run with
  | start => exact ⟨_, rfl, .atStart text⟩
  | step _ given _ ih =>
    obtain ⟨cursor, rfl, on⟩ := ih
    obtain ⟨_, _, next, -, -, rfl, on'⟩ := Scanner.exists_found on given
    exact ⟨_, rfl, on'.resume rawTags _⟩

/-- Reading on from a state of a run gives what reading from the start gives. -/
theorem Run.readTags_eq (run : Run rawTags text earlier builder scanner) :
    Builder.readTags rawTags .start (.atStart text) = Builder.readTags rawTags builder scanner := by
  induction run with
  | start => rfl
  | step _ found added ih =>
    rw [ih, Builder.readTags, found]
    dsimp only
    rw [added]

/-- A text is read as the tree that grows from the tags of a run to its end. -/
theorem Run.parse_eq {after : Scanner} (run : Run rawTags text earlier builder scanner)
    (ends : scanner.nextTag = .ok (none, after)) :
    parse rawTags text =
      .ok ((earlier.foldl Builder.grow .start).finish (Offset.cut (width text))) := by
  rw [parse, run.readTags_eq, Builder.readTags, ends, run.builder_eq]
  rfl

/-- The states while a text is read with places of any size, each with the tags found so far. -/
inductive Pass (rawTags : List String) (text : List Char) : List Tag → Builder → Cursor → Prop
  | start : Pass rawTags text [] .start (.atStart text)
  | step {earlier : List Tag} {builder grown : Builder} {cursor next : Cursor} {tag : Tag}
      (pass : Pass rawTags text earlier builder cursor)
      (found : cursor.nextTag? = some (tag, next)) (added : builder.addTag tag = .ok grown) :
      Pass rawTags text (earlier ++ [tag]) grown (resume rawTags tag next)

namespace Pass

/-- Reading on from a state of a pass gives what reading from the start gives. -/
theorem addTags_eq (pass : Pass rawTags text earlier builder cursor) :
    addTags rawTags .start (.atStart text) = addTags rawTags builder cursor := by
  induction pass with
  | start => rfl
  | step _ found added ih =>
    rw [ih, addTags_of_some found, added]
    rfl

/-- Reading on from a state of a pass reaches the end of the text. -/
theorem exists_last (pass : Pass rawTags text earlier builder cursor) {last : Builder}
    (read : addTags rawTags builder cursor = .ok last) :
    ∃ tags stop, Pass rawTags text tags last stop ∧ stop.nextTag? = none := by
  fun_induction tags rawTags cursor generalizing earlier builder with
  | case1 cursor none =>
    rw [addTags_of_none none] at read
    cases read
    exact ⟨earlier, cursor, pass, none⟩
  | case2 cursor tag next found ih =>
    rw [addTags_of_some found] at read
    obtain ⟨grown, added, later⟩ := Offset.exists_of_bind read
    exact ih (pass.step found added) later

/-- What every tag keeps holds until the end of the text. -/
theorem keeps (pass : Pass rawTags text earlier builder cursor) (holds : Builder → Prop)
    (kept : ∀ earlier builder cursor tag grown, Pass rawTags text earlier builder cursor →
      builder.addTag tag = .ok grown → holds builder → holds grown)
    {last : Builder} (read : addTags rawTags builder cursor = .ok last) (now : holds builder) :
    holds last := by
  fun_induction Region.tags rawTags cursor generalizing earlier builder with
  | case1 cursor none =>
    rw [addTags_of_none none] at read
    cases read
    exact now
  | case2 cursor tag next found ih =>
    rw [addTags_of_some found] at read
    obtain ⟨grown, added, later⟩ := Offset.exists_of_bind read
    exact ih (pass.step found added) later (kept _ _ _ _ _ pass added now)

/-- The tree of a pass is grown from its tags. -/
theorem builder_eq (pass : Pass rawTags text earlier builder cursor) :
    builder = earlier.foldl Builder.grow .start := by
  induction pass with
  | start => rfl
  | step _ _ added ih =>
    rw [List.foldl_append, ← ih]
    exact Builder.eq_grow_of_addTag added

/-- The tags of a text are those of a pass and those from its last place on. -/
theorem tags_eq (pass : Pass rawTags text earlier builder cursor) :
    tags rawTags (.atStart text) = earlier ++ tags rawTags cursor := by
  induction pass with
  | start => rfl
  | step _ found _ ih => rw [ih, tags_of_some found, List.append_assoc, List.singleton_append]

/-- The place of a state is a place in the text. -/
theorem on (pass : Pass rawTags text earlier builder cursor) : Bytes.On text cursor := by
  induction pass with
  | start => exact .atStart text
  | step _ found _ ih => exact (ih.afterTag found).resume rawTags _

/-- What a pass has read so far is nested up to its place. -/
theorem nests (pass : Pass rawTags text earlier builder cursor) : builder.Nests cursor.offset := by
  induction pass with
  | start => exact Builder.nests_start
  | @step _ _ _ cursor next tag _ found added ih =>
    obtain ⟨site⟩ := Cursor.nextTag?_site found
    obtain ⟨skipped, -, place⟩ := resume_skips rawTags tag next
    have start := site.start_eq
    have stop := site.next_eq
    rw [Builder.eq_grow_of_addTag added]
    exact (ih.grow (by omega) site.start_lt_stop).mono (by omega)

/-- Below the limit a pass is a run of the scanner. -/
theorem run (pass : Pass rawTags text earlier builder cursor) (fits : width text ≤ Offset.limit) :
    Run rawTags text earlier builder ⟨text, cursor⟩ := by
  induction pass with
  | start => exact .start
  | step before found added ih =>
    have below := before.on.offset_add_width
    exact ih.step (Scanner.nextTag_of_some (by omega) found) added

end Pass

/-- Below the limit a run of the scanner is a pass. -/
theorem Run.exists_pass (run : Run rawTags text earlier builder scanner)
    (fits : width text ≤ Offset.limit) :
    ∃ cursor, scanner = ⟨text, cursor⟩ ∧ Pass rawTags text earlier builder cursor := by
  induction run with
  | start => exact ⟨_, rfl, .start⟩
  | step _ found added ih =>
    obtain ⟨cursor, rfl, pass⟩ := ih
    have below := pass.on.offset_add_width
    cases read : cursor.nextTag? with
    | none =>
      rw [Scanner.nextTag_of_none read] at found
      cases found
    | some reading =>
      rw [Scanner.nextTag_of_some (by omega) read] at found
      cases found
      exact ⟨_, rfl, pass.step read added⟩

/-- Below the limit the runs of the scanner are the passes through the text. -/
theorem run_iff (fits : width text ≤ Offset.limit) :
    Run rawTags text earlier builder ⟨text, cursor⟩ ↔ Pass rawTags text earlier builder cursor := by
  constructor
  · intro run
    obtain ⟨_, same, pass⟩ := run.exists_pass fits
    cases same
    exact pass
  · intro pass
    exact pass.run fits

/-- Below the limit there is a pass to every tag of a text. -/
theorem exists_pass_of_tags (fits : width text ≤ Offset.limit) {later : List Tag}
    (split : tags rawTags (.atStart text) = earlier ++ later) :
    ∃ cursor, Pass rawTags text earlier (earlier.foldl Builder.grow .start) cursor ∧
      tags rawTags cursor = later := by
  induction earlier using List.reverseRecOn generalizing later with
  | nil => exact ⟨_, .start, split⟩
  | append_singleton front tag ih =>
    rw [List.append_assoc, List.singleton_append] at split
    obtain ⟨cursor, pass, rest⟩ := ih split
    have inside := (inOrder_tags rawTags cursor).attributes_le (rest ▸ List.mem_cons_self)
    have below := pass.on.offset_add_width
    cases found : cursor.nextTag? with
    | none =>
      rw [tags_of_none found] at rest
      cases rest
    | some reading =>
      rw [tags_of_some found] at rest
      cases rest
      rw [List.foldl_append]
      exact ⟨_, pass.step found (Builder.addTag_eq_ok _ (by omega)), rfl⟩

/-- A text below the limit has a pass to its end. -/
theorem exists_pass (rawTags : List String) (fits : width text ≤ Offset.limit) :
    ∃ tags last stop, Pass rawTags text tags last stop ∧ stop.nextTag? = none ∧
      addTags rawTags .start (.atStart text) = .ok last ∧
      tree rawTags text = last.finish (width text) := by
  have read := addTags_eq_ok rawTags fits
  obtain ⟨tags, stop, pass, none⟩ := Pass.start.exists_last read
  exact ⟨tags, _, stop, pass, none, read, rfl⟩

end Region

end SfcIndex.Markup
