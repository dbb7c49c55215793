import Mathlib.Data.List.Induction
import Mathlib.Data.List.Infix
import SfcIndex.Proofs.Markup.Values
import SfcIndex.Proofs.Markup.Written

/-! # Quotes in a tag

Two readers go over the attribute text of a tag and look out for quotes. The search for the end of
the tag takes a quote for the start of a value only behind `=`, and the splitter into tokens takes
any quote that it comes to. They are of one mind up to the first quote that starts no value and no
further (`agree_iff`); so the splitter can come to the end of a tag inside a quote, and the
attributes from the stray quote on are then one token for it.
-/

namespace SfcIndex.Markup

open Text

namespace CloseSearch

/-- What the search for the end of a tag has seen after some text. -/
def after (text : List Char) : CloseSearch := text.foldl step (outside false)

/-- The quote that ends the value which the search is in. -/
def quote? : CloseSearch → Option Char
  | outside _ => none
  | quoted quote => some quote

theorem after_append (text more : List Char) :
    after (text ++ more) = more.foldl step (after text) := List.foldl_append

/-- The state after one more character is one step further. -/
theorem after_concat (text : List Char) (c : Char) : after (text ++ [c]) = (after text).step c :=
  after_append text [c]

/-- The quotes that the search is in are quotes. -/
theorem quotes_after (text : List Char) : (after text).Quotes := by
  induction text using List.reverseRecOn with
  | nil => trivial
  | append_singleton text c ih =>
    rw [after_concat]
    exact quotes_step ih c

section Split

variable {state : CloseSearch} {text inside last : List Char}

/-- A tag whose end is not found at once goes on with one more character. -/
theorem splitAtClose?_of_cons {c : Char}
    (split : splitAtClose? state text = some (c :: inside, last)) :
    state.endsAt c = false ∧ ∃ rest, splitAtClose? (state.step c) rest = some (inside, last) := by
  obtain rfl := eq_of_splitAtClose? split
  rw [List.cons_append, splitAtClose?] at split
  split at split
  next => cases split
  next goes =>
    obtain ⟨⟨_, _⟩, more, same⟩ := Option.map_eq_some_iff.1 split
    cases same
    exact ⟨Bool.eq_false_iff.2 goes, _, more⟩

/-- The search goes over every part of a tag that it starts with. -/
theorem passes_of_splitAtClose? {front : List Char}
    (split : splitAtClose? state text = some (inside, last)) (begins : front <+: inside) :
    state.Passes front (front.foldl step state) := by
  induction front generalizing state text inside with
  | nil => exact .nil state
  | cons c front ih =>
    obtain ⟨rest, rfl⟩ := begins
    obtain ⟨goes, _, more⟩ := splitAtClose?_of_cons split
    exact .cons goes (ih more ⟨rest, rfl⟩)

/-- The search ends outside of any value. -/
theorem quote?_of_splitAtClose? (split : splitAtClose? state text = some (inside, last)) :
    (inside.foldl step state).quote? = none := by
  induction inside generalizing state text with
  | nil =>
    cases state with
    | outside afterEquals => rfl
    | quoted quote =>
      obtain rfl := eq_of_splitAtClose? split
      rw [List.nil_append, splitAtClose?, if_neg (by simp [endsAt])] at split
      obtain ⟨_, -, same⟩ := Option.map_eq_some_iff.1 split
      cases same
  | cons c inside ih =>
    obtain ⟨-, _, more⟩ := splitAtClose?_of_cons split
    exact ih more

end Split

/-- A value goes on as long as its quote does not come. -/
theorem foldl_step_quoted {quote : Char} {text : List Char} (other : quote ∉ text) :
    text.foldl step (quoted quote) = quoted quote := by
  induction text with
  | nil => rfl
  | cons c rest ih =>
    rw [List.mem_cons, not_or] at other
    rw [List.foldl_cons, step, if_neg (Ne.symm other.1)]
    exact ih other.2

end CloseSearch

namespace Attribute

/-- The quote that is open for the splitter after some text. -/
def quoteOver (text : List Char) : Option Char := text.foldl quoteAfter none

theorem quoteOver_append (text more : List Char) :
    quoteOver (text ++ more) = more.foldl quoteAfter (quoteOver text) := List.foldl_append

theorem quoteOver_concat (text : List Char) (c : Char) :
    quoteOver (text ++ [c]) = quoteAfter (quoteOver text) c := quoteOver_append text [c]

/-- The byte at a place of an attribute text belongs to one of its tokens. -/
def InToken (text : List Char) (place : Nat) : Prop :=
  ∃ token ∈ tokens 0 text, token.1 ≤ place ∧ place < token.1 + width token.2

/-- A blank opens no quote. -/
theorem quoteAfter_of_blank {c : Char} (blank : isAsciiBlank c = true) :
    quoteAfter none c = none := by
  simp only [isAsciiBlank, Bool.or_eq_true, decide_eq_true_iff] at blank
  rcases blank with (((rfl | rfl) | rfl) | rfl) | rfl <;> rfl

/-- A token has no blank outside of quotes. -/
theorem solid_of_splitToken {openQuote : Option Char} {text front rest : List Char} {c : Char}
    (parts : (splitToken openQuote text).1 = front ++ c :: rest) :
    (front.foldl quoteAfter openQuote).isSome = true ∨ isAsciiBlank c = false := by
  induction text generalizing openQuote front with
  | nil => cases front <;> cases parts
  | cons d text ih =>
    rw [splitToken] at parts
    split at parts
    next => cases front <;> cases parts
    next goes =>
      cases front with
      | nil =>
        injection parts with same _
        subst same
        cases openQuote with
        | none => exact .inr (by simpa using goes)
        | some quote => exact .inl rfl
      | cons e front =>
        injection parts with same parts
        subst same
        rw [List.foldl_cons]
        exact ih parts

/-- A token that the text does not end with ends outside of quotes. -/
theorem foldl_quoteAfter_splitToken {openQuote : Option Char} {text : List Char}
    (more : (splitToken openQuote text).2 ≠ []) :
    (splitToken openQuote text).1.foldl quoteAfter openQuote = none := by
  induction text generalizing openQuote with
  | nil => exact absurd rfl more
  | cons c text ih =>
    rw [splitToken] at more ⊢
    split at more
    next ends =>
      rw [if_pos ends]
      exact Option.isNone_iff_eq_none.1 (Bool.and_eq_true_iff.1 ends).1
    next goes =>
      rw [if_neg goes]
      exact ih more

/-- The tokens cover what is in quotes and what is no blank. -/
theorem exists_token_iff (offset : Nat) {text front rest : List Char} {c : Char}
    (whole : text = front ++ c :: rest) :
    (∃ token ∈ tokens offset text, token.1 ≤ offset + width front ∧
        offset + width front < token.1 + width token.2) ↔
      (quoteOver front).isSome = true ∨ isAsciiBlank c = false := by
  fun_induction tokens offset text generalizing front with
  | case1 => cases front <;> cases whole
  | case2 offset d text blank ih =>
    have positive := d.utf8Size_pos
    cases front with
    | nil =>
      injection whole with same _
      subst same
      constructor
      · rintro ⟨token, member, before, -⟩
        obtain ⟨start, place, -⟩ := standsAt_of_mem_tokens member
        rw [width_nil] at before
        omega
      · rintro (quoted | solid)
        · cases quoted
        · rw [blank] at solid
          cases solid
    | cons e front =>
      injection whole with same whole
      subst same
      have quote : quoteOver (d :: front) = quoteOver front := by
        rw [quoteOver, List.foldl_cons, quoteAfter_of_blank blank]
        rfl
      rw [quote, ← ih whole, width_cons, Nat.add_assoc]
  | @case3 offset d text solid parts ih =>
    have divided : parts.1 ++ parts.2 = front ++ c :: rest :=
      (append_splitToken none (d :: text)).trans whole
    by_cases inside : width front < width parts.1
    · -- The character is in the first token.
      obtain ⟨left, token, tail⟩ := exists_of_width_le divided (Nat.le_of_lt inside)
      cases left with
      | nil =>
        rw [token, List.append_nil] at inside
        exact absurd inside (Nat.lt_irrefl _)
      | cons e left =>
        injection tail with same _
        subst same
        refine iff_of_true ⟨(offset, parts.1), List.mem_cons_self, ?_, ?_⟩
          (solid_of_splitToken token)
        · exact Nat.le_add_right _ _
        · exact Nat.add_lt_add_left inside offset
    · -- It is behind the first token, which ends outside of quotes.
      obtain ⟨left, rfl, tail⟩ := exists_of_width_le divided.symm (Nat.not_lt.1 inside)
      have ends : quoteOver parts.1 = none := by
        apply foldl_quoteAfter_splitToken
        intro none
        rw [none] at tail
        cases left <;> cases tail
      have quote : quoteOver (parts.1 ++ left) = quoteOver left := by
        rw [quoteOver_append, ends]
        rfl
      rw [quote, ← ih tail, width_append, ← Nat.add_assoc]
      constructor
      · rintro ⟨token, member, before, behind⟩
        rcases List.mem_cons.1 member with rfl | later
        · dsimp only at behind
          omega
        · exact ⟨token, later, before, behind⟩
      · rintro ⟨token, later, bounds⟩
        exact ⟨token, List.mem_cons_of_mem _ later, bounds⟩

/-- A character is in a token when it is in quotes or no blank. -/
theorem inToken_iff {text front rest : List Char} {c : Char} (whole : text = front ++ c :: rest) :
    InToken text (width front) ↔ (quoteOver front).isSome = true ∨ isAsciiBlank c = false := by
  have tokens := exists_token_iff 0 whole
  rwa [Nat.zero_add] at tokens

end Attribute

/-- A quote in a text starts no value: it is neither in one nor behind `=`. -/
def Stray (text : List Char) : Prop :=
  ∃ front quote rest, text = front ++ quote :: rest ∧ (quote = '"' ∨ quote = '\'') ∧
    CloseSearch.after front = .outside false

instance (text : List Char) : Decidable (Stray text) :=
  decidable_of_iff (∃ front ∈ text.inits, CloseSearch.after front = .outside false ∧
      (front ++ ['"'] <+: text ∨ front ++ ['\''] <+: text)) <| by
    constructor
    · rintro ⟨front, -, outside, ⟨rest, whole⟩ | ⟨rest, whole⟩⟩
      · exact ⟨front, '"', rest, by simp [← whole], .inl rfl, outside⟩
      · exact ⟨front, '\'', rest, by simp [← whole], .inr rfl, outside⟩
    · rintro ⟨front, quote, rest, rfl, known, outside⟩
      refine ⟨front, (List.mem_inits _ _).2 ⟨_, rfl⟩, outside, ?_⟩
      rcases known with rfl | rfl
      · exact .inl ⟨rest, by simp⟩
      · exact .inr ⟨rest, by simp⟩

/-- A stray quote stays one when more text follows. -/
theorem Stray.append {text : List Char} (stray : Stray text) (more : List Char) :
    Stray (text ++ more) := by
  obtain ⟨front, quote, rest, rfl, known, outside⟩ := stray
  exact ⟨front, quote, rest ++ more, by simp, known, outside⟩

/-- One more character leaves the readers of one mind, unless it is a stray quote. -/
theorem quote?_step {state : CloseSearch} {c : Char}
    (starts : c = '"' ∨ c = '\'' → state ≠ .outside false) :
    (state.step c).quote? = Attribute.quoteAfter state.quote? c := by
  cases state with
  | quoted quote =>
    rw [CloseSearch.step, CloseSearch.quote?, Attribute.quoteAfter]
    split <;> rfl
  | outside afterEquals =>
    by_cases quote : c = '"' ∨ c = '\''
    · cases afterEquals with
      | false => exact absurd rfl (starts quote)
      | true => rcases quote with rfl | rfl <;> rfl
    · have opens : Attribute.quoteAfter none c = none := by
        simpa [Attribute.quoteAfter] using quote
      rw [CloseSearch.quote?, opens, CloseSearch.step]
      split
      · rfl
      · split
        next known =>
          simp only [Bool.and_eq_true, Bool.or_eq_true, decide_eq_true_eq] at known
          exact absurd known.1 quote
        next => split <;> rfl

/-- Up to the first stray quote the same quotes are open for both readers. -/
theorem quote?_after {text : List Char} (clear : ¬ Stray text) :
    (CloseSearch.after text).quote? = Attribute.quoteOver text := by
  induction text using List.reverseRecOn with
  | nil => rfl
  | append_singleton text c ih =>
    have before := ih fun stray => clear (stray.append [c])
    rw [CloseSearch.after_concat, Attribute.quoteOver_concat, ← before]
    apply quote?_step
    intro quote outside
    exact clear ⟨text, c, [], rfl, quote, outside⟩

/-- The readers are of one mind all over a text if it has no stray quote and only then: one of them
goes into a quote there. -/
theorem agree_iff (text : List Char) :
    (∀ front, front <+: text →
        (CloseSearch.after front).quote?.isSome = (Attribute.quoteOver front).isSome) ↔
      ¬ Stray text := by
  constructor
  · rintro agree ⟨front, quote, rest, rfl, known, outside⟩
    have before := agree front ⟨_, rfl⟩
    have behind := agree (front ++ [quote]) ⟨rest, by simp⟩
    rw [outside, CloseSearch.quote?, Option.isSome_none, eq_comm, Option.isSome_eq_false_iff,
      Option.isNone_iff_eq_none] at before
    rw [CloseSearch.after_concat, Attribute.quoteOver_concat, outside, before] at behind
    rcases known with rfl | rfl <;> cases behind
  · intro clear front begins
    obtain ⟨rest, rfl⟩ := begins
    rw [quote?_after fun stray => clear (stray.append rest)]

section

variable {cursor next : Cursor} {tag : Tag}

/-- What comes behind the attributes of a tag has no quote. -/
theorem ne_quote_of_mem_end {blanks : List Char} (blank : ∀ c ∈ blanks, isAsciiBlank c = true)
    {c : Char} (member : c ∈ tag.mark ++ blanks) : ¬ (c = '"' ∨ c = '\'') := by
  rcases List.mem_append.1 member with mark | member
  · unfold Tag.mark at mark
    split at mark
    · obtain rfl := List.mem_singleton.1 mark
      decide
    · cases mark
  · rintro (rfl | rfl) <;> exact absurd (blank _ member) (by decide)

/-- The search for the end of a tag goes over its attribute text and is then outside of any value.
-/
theorem search_attributeText (found : cursor.nextTag? = some (tag, next))
    (opens : tag.kind ≠ .closing) :
    (∀ front, front <+: tag.attributeText →
        (CloseSearch.outside false).Passes front (.after front)) ∧
      (CloseSearch.after tag.attributeText).quote? = none := by
  obtain ⟨start, blanks, written, -, -, close⟩ :=
    Cursor.exists_written found
  have split := close opens
  refine ⟨?_, ?_⟩
  · intro front begins
    exact CloseSearch.passes_of_splitAtClose? split (begins.trans ⟨_, rfl⟩)
  · have known := CloseSearch.quotes_after tag.attributeText
    have ends : (CloseSearch.after (tag.attributeText ++ (tag.mark ++ blanks))).quote? = none :=
      CloseSearch.quote?_of_splitAtClose? split
    rw [CloseSearch.after_append] at ends
    cases state : CloseSearch.after tag.attributeText with
    | outside afterEquals => rfl
    | quoted quote =>
      rw [state] at known ends
      have other : quote ∉ tag.mark ++ blanks := by
        intro member
        exact ne_quote_of_mem_end written.blank member known
      rw [CloseSearch.foldl_step_quoted other] at ends
      cases ends

/-- For every opening or self-closing tag that is found: the search for its end has gone over the
attribute text, where it ends outside of any value. The splitter makes tokens of what is in quotes
for it and of what is no blank. In every beginning of the attribute text, the two take the same
bytes to be in quotes if and only if none of its quotes is stray. Without a stray quote in the
attribute text, the splitter comes to the end outside of quotes, and it keeps a blank in a token
only where the search for the end is in a value. -/
theorem nextTag?_quotes (found : cursor.nextTag? = some (tag, next)) (opens : tag.kind ≠ .closing) :
    ((∀ front, front <+: tag.attributeText →
          (CloseSearch.outside false).Passes front (.after front)) ∧
        (CloseSearch.after tag.attributeText).quote? = none) ∧
      (∀ front c rest, tag.attributeText = front ++ c :: rest →
        (Attribute.InToken tag.attributeText (width front) ↔
          (Attribute.quoteOver front).isSome = true ∨ isAsciiBlank c = false)) ∧
      (∀ text, text <+: tag.attributeText →
        ((∀ front, front <+: text →
            (CloseSearch.after front).quote?.isSome = (Attribute.quoteOver front).isSome) ↔
          ¬ Stray text)) ∧
      (¬ Stray tag.attributeText →
        Attribute.quoteOver tag.attributeText = none ∧
        ∀ front c rest, tag.attributeText = front ++ c :: rest →
          (Attribute.InToken tag.attributeText (width front) ↔
            (CloseSearch.after front).quote?.isSome = true ∨ isAsciiBlank c = false)) := by
  have search := search_attributeText found opens
  refine ⟨search, ?_, fun text _ => agree_iff text, fun clear => ⟨?_, ?_⟩⟩
  · intro front c rest whole
    exact Attribute.inToken_iff whole
  · rw [← quote?_after clear, search.2]
  · intro front c rest whole
    rw [Attribute.inToken_iff whole]
    have front_clear : ¬ Stray front := by
      intro stray
      rw [whole] at clear
      exact clear (stray.append _)
    rw [quote?_after front_clear]

/-- An apostrophe in a key is a quote for the splitter alone: it takes all that follows in the tag
for one token, and the attribute `ref` is lost. -/
theorem nextTag?_quotes_apostrophe :
    let tag : Tag := ⟨.opening, "p", ⟨0, 14⟩, ⟨2, 13⟩, " a' ref=\"x\"".toList⟩
    (Cursor.atStart "<p a' ref=\"x\"></p>".toList).nextTag? =
        some (tag, ⟨14, "</p>".toList⟩) ∧
      ¬ (∀ front, front <+: tag.attributeText →
        (CloseSearch.after front).quote?.isSome = (Attribute.quoteOver front).isSome) ∧
      Attribute.quoteOver tag.attributeText = some '\'' ∧
      Attribute.parse 2 tag.attributeText =
        .ok [⟨"a' ref", ⟨3, 9⟩, some ⟨"x", ⟨11, 12⟩⟩⟩] := by
  refine ⟨by decide +kernel, ?_, by decide +kernel, by decide +kernel⟩
  intro agree
  have front : " a' ".toList <+: " a' ref=\"x\"".toList := by decide +kernel
  have same := agree _ front
  revert same
  decide +kernel

/-- Quotes of either kind inside values, `>` in a value and blanks around `=` are read in the same
way by both. -/
theorem nextTag?_quotes_values :
    let text := "<i a = \"x > 'y'\" v-for='b in \"bs\"' c />".toList
    let tag : Tag := ⟨.selfClosing, "i", ⟨0, 39⟩, ⟨2, 37⟩, (text.drop 2).take 35⟩
    ((Cursor.atStart text).nextTag? = some (tag, ⟨39, []⟩) ∧ tag.kind ≠ .closing ∧
        ¬ Stray tag.attributeText) ∧
      Attribute.quoteOver tag.attributeText = none ∧
      ∀ front, front <+: tag.attributeText →
        (CloseSearch.after front).quote?.isSome = (Attribute.quoteOver front).isSome := by
  intro text tag
  have found : (Cursor.atStart text).nextTag? = some (tag, ⟨39, []⟩) := by decide +kernel
  have opens : tag.kind ≠ .closing := by decide
  have clear : ¬ Stray tag.attributeText := by decide +kernel
  obtain ⟨-, -, agree, ends⟩ := nextTag?_quotes found opens
  exact ⟨⟨found, opens, clear⟩, (ends clear).1, (agree _ ⟨[], by simp⟩).2 clear⟩

end

end SfcIndex.Markup
