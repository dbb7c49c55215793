import SfcIndex.Proofs.Markup.Run
import SfcIndex.Proofs.Markup.Scan

/-! # Texts past the limit of offsets

Of a tag behind more than four gigabytes of letters, offsets are kept that lead to the start of the
text, and the scanner goes on there (`Region.Run.advance`). In `backText` it comes into a comment
that has no end, and the last tag of the text is never found (`parse_backText`). In `loopText` the
closing tag of an element is kept in front of the content of the element (`parse_loopText`). The
letters are never written out: a search passes over them in one step (`Cursor.nextTag?_letters`).
-/

namespace SfcIndex

open Text

namespace Text

/-- That many letters, which are never written out. -/
@[irreducible] def letters (count : Nat) : List Char := List.replicate count 'x'

/-- Every letter is one byte. -/
theorem width_letters (count : Nat) : width (letters count) = count := by
  unfold letters
  induction count with
  | zero => rfl
  | succ count ih =>
    rw [List.replicate_succ, width_cons, ih, Nat.add_comm]
    rfl

/-- The bytes of a text with letters in it. -/
theorem width_around (front back : List Char) (count : Nat) :
    width (front ++ (letters count ++ back)) = width front + count + width back := by
  rw [width_append, width_append, width_letters, Nat.add_assoc]

/-- There is nothing but one character among the letters. -/
theorem not_mem_letters {c : Char} (other : c ≠ 'x') (count : Nat) : c ∉ letters count := by
  unfold letters
  exact fun member => other (List.eq_of_mem_replicate member)

/-- Another character is in a text with letters in it only when it is before or behind them. -/
theorem not_mem_around {c : Char} {front back : List Char} (other : c ≠ 'x') (before : c ∉ front)
    (after : c ∉ back) (count : Nat) : c ∉ front ++ (letters count ++ back) := by
  simp [before, after, not_mem_letters other]

end Text

namespace Markup

/-- A comment without a `-` in it has no end. -/
theorem pastComment_plain {text : List Char} (plain : '-' ∉ text) (offset : Nat) :
    pastComment offset text = ⟨offset + width text, []⟩ := by
  induction text generalizing offset with
  | nil => rfl
  | cons c rest ih =>
    have other : c ≠ '-' := fun same => plain (same ▸ List.mem_cons_self)
    rw [pastComment.eq_3 _ _ _ fun _ same _ => other same,
      ih fun member => plain (List.mem_cons_of_mem _ member), width_cons, Nat.add_assoc]

end Markup

namespace Text.Cursor

open Markup

/-- The search for a tag passes over letters. -/
theorem nextTag?_letters (count offset : Nat) (rest : List Char) :
    nextTag? ⟨offset, letters count ++ rest⟩ = nextTag? ⟨offset + count, rest⟩ := by
  rw [nextTag?_text (not_mem_letters (by decide) count), width_letters]

/-- There is no tag in a comment without an end. -/
theorem nextTag?_unended {rest : List Char} {offset stop : Nat}
    (unended : pastComment (offset + 4) rest = ⟨stop, []⟩) :
    nextTag? ⟨offset, '<' :: '!' :: '-' :: '-' :: rest⟩ = none := by
  rw [nextTag?, unended, nextTag?]

end Text.Cursor

namespace Markup

/-- After a tag without raw text scanning goes on where the tag ends. -/
theorem Region.resume_plain {rawTags : List String} {tag : Tag}
    (plain : (tag.kind = .opening && rawTags.any (sameName · tag.name)) = false) (next : Cursor) :
    resume rawTags tag next = next := by
  rw [resume, if_neg (ne_true_of_eq_false plain)]

/-- One more tag, which scanning goes on behind. -/
theorem Region.Run.advance {rawTags : List String} {text : List Char} {earlier : List Tag}
    {builder : Builder} {scanner : Scanner} {next place : Cursor} {tag : Tag}
    (run : Run rawTags text earlier builder scanner)
    (given : scanner.nextTag = .ok (some tag, ⟨text, next⟩))
    (below : tag.attributeSpan.start + width tag.attributeText ≤ Offset.limit)
    (goes : resume rawTags tag next = place) :
    Run rawTags text (earlier ++ [tag]) (builder.grow tag) ⟨text, place⟩ := by
  cases goes
  exact run.step given (builder.addTag_eq_ok below)

/-- One more tag that ends below the limit and has no raw text behind it. -/
theorem Region.Run.advance_below {rawTags : List String} {text : List Char} {earlier : List Tag}
    {builder : Builder} {cursor next : Cursor} {tag : Tag}
    (run : Run rawTags text earlier builder ⟨text, cursor⟩)
    (found : cursor.nextTag? = some (tag, next)) (below : tag.span.stop ≤ Offset.limit)
    (plain : (tag.kind = .opening && rawTags.any (sameName · tag.name)) = false) :
    Run rawTags text (earlier ++ [tag]) (builder.grow tag) ⟨text, next⟩ := by
  obtain ⟨site⟩ := Cursor.nextTag?_site found
  have attributes := site.attributeStop_eq
  have stop := site.stop_eq
  exact run.advance (Scanner.nextTag_of_below found below) (by omega) (resume_plain plain _)

/-- An element, more letters than fit, and two more elements. The first of these ends, but for the
bits that are cut off, where the attribute of the element in front of the letters has a `<!--`. -/
def backText : List Char :=
  "<p a=\"<!--\" />".toList ++ (letters 4294967283 ++ "<e /><f />".toList)

/-- The tags that are found in `backText`, at the offsets that are kept for them. -/
def backTags : List Tag :=
  [⟨.selfClosing, "p", ⟨0, 14⟩, ⟨2, 12⟩, " a=\"<!--\" ".toList⟩,
    ⟨.selfClosing, "e", ⟨1, 6⟩, ⟨3, 4⟩, ['a']⟩]

/-- The first tag of `backText` is given as it is found. -/
theorem nextTag_backText :
    (Scanner.atStart backText).nextTag = .ok
      (some ⟨.selfClosing, "p", ⟨0, 14⟩, ⟨2, 12⟩, " a=\"<!--\" ".toList⟩,
        ⟨backText, ⟨14, letters 4294967283 ++ "<e /><f />".toList⟩⟩) :=
  Scanner.nextTag_of_below (Cursor.nextTag?_of_openingTag? (by decide) rfl) (by decide)

/-- The second tag of `backText` is found past the limit of offsets, and the scanner goes back. -/
theorem nextTag_backText_back :
    (⟨backText, ⟨14, letters 4294967283 ++ "<e /><f />".toList⟩⟩ : Scanner).nextTag = .ok
      (some ⟨.selfClosing, "e", ⟨1, 6⟩, ⟨3, 4⟩, ['a']⟩,
        ⟨backText, ⟨6, "<!--\" />".toList ++
          (letters 4294967283 ++ "<e /><f />".toList)⟩⟩) := by
  have found : Cursor.nextTag? ⟨14, letters 4294967283 ++ "<e /><f />".toList⟩ = some
      (⟨.selfClosing, "e", ⟨4294967297, 4294967302⟩, ⟨4294967299, 4294967300⟩, [' ']⟩,
        ⟨4294967302, "<f />".toList⟩) := by
    rw [Cursor.nextTag?_letters]
    exact Cursor.nextTag?_of_openingTag? (by decide) rfl
  exact Scanner.nextTag_of_record found rfl rfl

/-- The last element of `backText` is lost. -/
theorem parse_backText :
    Region.parse [] backText = .ok ((backTags.foldl Builder.grow .start).finish 11) := by
  have size : Offset.cut (width backText) = 11 :=
    (congrArg Offset.cut (width_around _ _ _)).trans (by decide +kernel)
  have begun : Region.Run [] backText [] .start _ := .start
  have first := begun.advance nextTag_backText (by decide) rfl
  have second : Region.Run [] backText backTags _ _ :=
    first.advance nextTag_backText_back (by decide) rfl
  have plain : '-' ∉ "\" />".toList ++ (letters 4294967283 ++ "<e /><f />".toList) :=
    not_mem_around (by decide) (by decide) (by decide) _
  have ends := Cursor.nextTag?_unended (pastComment_plain plain 10)
  rw [second.parse_eq (Scanner.nextTag_of_none ends), size]

/-- A loop in a template, more letters than fit, and the closing tag of the loop, which starts, but
for the bits that are cut off, in the key of the attribute that makes it a loop. -/
def loopText : List Char :=
  "<template><p v-for=\"a in b\" c=\"<!--\"><i></i>".toList ++ (letters 4294967268 ++ "</p>".toList)

/-- The tags that are found in `loopText`, at the offsets that are kept for them. -/
def loopTags : List Tag :=
  [⟨.opening, "template", ⟨0, 10⟩, ⟨9, 9⟩, []⟩,
    ⟨.opening, "p", ⟨10, 37⟩, ⟨12, 36⟩, " v-for=\"a in b\" c=\"<!--\"".toList⟩,
    ⟨.opening, "i", ⟨37, 40⟩, ⟨39, 39⟩, []⟩, ⟨.closing, "i", ⟨40, 44⟩, ⟨43, 43⟩, []⟩,
    ⟨.closing, "p", ⟨16, 20⟩, ⟨19, 19⟩, []⟩]

/-- The tags in front of the letters of `loopText` are given as they are found. -/
theorem run_loopText :
    Region.Run Region.defaultRawTags loopText (loopTags.take 4)
      ((loopTags.take 4).foldl Builder.grow .start)
      ⟨loopText, ⟨44, letters 4294967268 ++ "</p>".toList⟩⟩ := by
  let rest := letters 4294967268 ++ "</p>".toList
  have template : Cursor.nextTag? ⟨0, loopText⟩ = some
      (⟨.opening, "template", ⟨0, 10⟩, ⟨9, 9⟩, []⟩,
        ⟨10, "<p v-for=\"a in b\" c=\"<!--\"><i></i>".toList ++ rest⟩) :=
    Cursor.nextTag?_of_openingTag? (by decide) rfl
  have loop : Cursor.nextTag? ⟨10, "<p v-for=\"a in b\" c=\"<!--\"><i></i>".toList ++ rest⟩ = some
      (⟨.opening, "p", ⟨10, 37⟩, ⟨12, 36⟩, " v-for=\"a in b\" c=\"<!--\"".toList⟩,
        ⟨37, "<i></i>".toList ++ rest⟩) :=
    Cursor.nextTag?_of_openingTag? (by decide) rfl
  have inner : Cursor.nextTag? ⟨37, "<i></i>".toList ++ rest⟩ = some
      (⟨.opening, "i", ⟨37, 40⟩, ⟨39, 39⟩, []⟩, ⟨40, "</i>".toList ++ rest⟩) :=
    Cursor.nextTag?_of_openingTag? (by decide) rfl
  have closing : Cursor.nextTag? ⟨40, "</i>".toList ++ rest⟩ = some
      (⟨.closing, "i", ⟨40, 44⟩, ⟨43, 43⟩, []⟩, ⟨44, rest⟩) :=
    Cursor.nextTag?_of_closingTag? rfl rfl
  have begun : Region.Run Region.defaultRawTags loopText [] .start _ := .start
  have first := begun.advance_below template (by decide) (by decide +kernel)
  have second := first.advance_below loop (by decide) (by decide +kernel)
  have third := second.advance_below inner (by decide) (by decide +kernel)
  exact third.advance_below closing (by decide) rfl

/-- The loop of `loopText` is closed before its content. -/
theorem parse_loopText :
    Region.parse Region.defaultRawTags loopText =
      .ok ((loopTags.foldl Builder.grow .start).finish 20) := by
  have size : Offset.cut (width loopText) = 20 :=
    (congrArg Offset.cut (width_around _ _ _)).trans (by decide +kernel)
  have found : Cursor.nextTag? ⟨44, letters 4294967268 ++ "</p>".toList⟩ = some
      (⟨.closing, "p", ⟨4294967312, 4294967316⟩, ⟨4294967315, 4294967315⟩, []⟩,
        ⟨4294967316, []⟩) := by
    rw [Cursor.nextTag?_letters]
    exact Cursor.nextTag?_of_closingTag? rfl rfl
  -- The scanner goes back into the value that declares the loop.
  let back : Cursor := ⟨20, "a in b\" c=\"".toList ++
    ("<!--\"><i></i>".toList ++ (letters 4294967268 ++ "</p>".toList))⟩
  have given : (⟨loopText, ⟨44, letters 4294967268 ++ "</p>".toList⟩⟩ : Scanner).nextTag =
      .ok (some ⟨.closing, "p", ⟨16, 20⟩, ⟨19, 19⟩, []⟩, ⟨loopText, back⟩) :=
    Scanner.nextTag_of_record found rfl rfl
  have run : Region.Run Region.defaultRawTags loopText loopTags _ ⟨_, back⟩ :=
    run_loopText.advance given (by decide) (Region.resume_plain rfl _)
  have plain : '-' ∉ "\"><i></i>".toList ++ (letters 4294967268 ++ "</p>".toList) :=
    not_mem_around (by decide) (by decide) (by decide) _
  have none : back.nextTag? = none := by
    rw [Cursor.nextTag?_text (by decide)]
    exact Cursor.nextTag?_unended (pastComment_plain plain _)
  rw [run.parse_eq (Scanner.nextTag_of_none none), size]

end Markup

end SfcIndex
