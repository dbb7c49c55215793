import SfcIndex.Proofs.Markup.Move
import SfcIndex.Proofs.Markup.Quotes

/-! # The ranges of attributes

`TokenAt` says where the tokens of an attribute text are and `Spells` what a token says, both
without a word of how a text is read. The attributes of a text are what its tokens spell
(`Attribute.mem_listed_iff`), and the range of every key and of every value is exact
(`Attribute.parse_ranges`).
-/

namespace SfcIndex.Markup.Attribute

open Text

/-- A longest part of an attribute text without a blank outside of quotes. -/
structure Separate (before token after : List Char) : Prop where
  nonempty : token ≠ []
  left : before ≠ [] → ∃ lead blank, before = lead ++ [blank] ∧ isAsciiBlank blank = true ∧
    quoteOver lead = none
  solid : ∀ front c rest, token = front ++ c :: rest →
    (quoteOver front).isSome = true ∨ isAsciiBlank c = false
  right : after ≠ [] → quoteOver token = none ∧ ∀ c ∈ after.head?, isAsciiBlank c = true

/-- A token stands in an attribute text at a byte offset. -/
def TokenAt (text : List Char) (start : Nat) (token : List Char) : Prop :=
  ∃ before after, text = before ++ (token ++ after) ∧ width before = start ∧
    Separate before token after

namespace TokenAt

variable {text token : List Char} {start : Nat}

/-- A token is a part of the text. -/
theorem standsAt (found : TokenAt text start token) : StandsAt text start token := by
  obtain ⟨before, after, whole, place, -⟩ := found
  exact ⟨before, after, whole, place⟩

theorem not_nil : ¬ TokenAt [] start token := by
  intro holds
  obtain ⟨before, after, whole, _, separate⟩ := holds
  obtain ⟨-, parts⟩ := List.append_eq_nil_iff.1 whole.symm
  exact separate.nonempty (List.append_eq_nil_iff.1 parts).1

/-- A token does not start with a blank. -/
theorem ne_blank {before after more : List Char} {c : Char}
    (separate : Separate before token after) (starts : token ++ after = c :: more) :
    isAsciiBlank c = false := by
  obtain ⟨first, rest, rfl⟩ := List.exists_cons_of_ne_nil separate.nonempty
  cases starts
  rcases separate.solid [] c rest rfl with quoted | solid
  · cases quoted
  · exact solid

/-- A blank only moves the tokens behind it. -/
theorem cons_iff {c : Char} {rest : List Char} (blank : isAsciiBlank c = true) :
    TokenAt (c :: rest) start token ↔
      ∃ more, start = c.utf8Size + more ∧ TokenAt rest more token := by
  have passes : ∀ lead, quoteOver (c :: lead) = quoteOver lead := by
    intro lead
    rw [quoteOver, List.foldl_cons, quoteAfter_of_blank blank]
    rfl
  constructor
  · intro holds
    obtain ⟨before, after, whole, place, separate⟩ := holds
    cases before with
    | nil =>
      have other := ne_blank separate whole.symm
      rw [blank] at other
      cases other
    | cons d front =>
      cases whole
      refine ⟨width front, place.symm, front, after, rfl, rfl, separate.nonempty, ?_,
        separate.solid, separate.right⟩
      intro some
      obtain ⟨lead, last, same, ends, outside⟩ := separate.left (List.cons_ne_nil _ _)
      cases lead with
      | nil =>
        cases same
        exact absurd rfl some
      | cons e lead =>
        cases same
        exact ⟨lead, last, rfl, ends, (passes lead).symm.trans outside⟩
  · intro holds
    obtain ⟨more, place, before, after, whole, start_eq, separate⟩ := holds
    subst whole start_eq place
    refine ⟨c :: before, after, rfl, rfl, separate.nonempty, ?_, separate.solid, separate.right⟩
    intro _
    cases before with
    | nil => exact ⟨[], c, rfl, blank, rfl⟩
    | cons d front =>
      obtain ⟨lead, last, same, ends, outside⟩ := separate.left (List.cons_ne_nil _ _)
      exact ⟨c :: lead, last, by rw [same]; rfl, ends, (passes lead).trans outside⟩

/-- Of two tokens at the start of a text neither is longer. -/
theorem eq_nil_of_longer {before first after before' more after' : List Char}
    (short : Separate before first after) (long : Separate before' (first ++ more) after')
    (rest : after = more ++ after') : more = [] := by
  cases more with
  | nil => rfl
  | cons c more =>
    obtain ⟨outside, blank⟩ := short.right (by rw [rest]; exact List.cons_ne_nil _ _)
    rw [rest] at blank
    rcases long.solid first c more rfl with quoted | solid
    · rw [outside] at quoted
      cases quoted
    · rw [blank c rfl] at solid
      cases solid

/-- A token that is separate from its surroundings is told by where it starts. -/
theorem eq_of_append_eq {before first after before' second after' : List Char}
    (known : Separate before first after) (known' : Separate before' second after')
    (same : first ++ after = second ++ after') : first = second := by
  rcases List.append_eq_append_iff.1 same with ⟨more, whole, rest⟩ | ⟨more, whole, rest⟩
  · subst whole
    rw [eq_nil_of_longer known known' rest, List.append_nil]
  · subst whole
    rw [eq_nil_of_longer known' known rest, List.append_nil]

/-- The tokens of a text that starts with one are that one and those behind it. -/
theorem append_iff {first rest : List Char} (separate : Separate [] first rest) :
    TokenAt (first ++ rest) start token ↔
      (start = 0 ∧ token = first) ∨
        ∃ more, start = width first + more ∧ TokenAt rest more token := by
  -- Behind the first token no quote is open.
  have passes : rest ≠ [] → ∀ lead, quoteOver (first ++ lead) = quoteOver lead := by
    intro some lead
    rw [quoteOver_append, (separate.right some).1]
    rfl
  constructor
  · intro holds
    obtain ⟨before, after, whole, place, found⟩ := holds
    by_cases atStart : before = []
    · subst atStart
      exact .inl ⟨place.symm, (eq_of_append_eq separate found whole).symm⟩
    · obtain ⟨lead, blank, rfl, ends, outside⟩ := found.left atStart
      -- The blank before the token is outside of quotes, so it is behind the first token.
      have longer : ∀ more, first = lead ++ [blank] ++ more → more = [] := by
        intro more inside
        rw [List.append_assoc] at inside
        rcases separate.solid lead blank more inside with quoted | solid
        · rw [outside] at quoted
          cases quoted
        · rw [ends] at solid
          cases solid
      obtain ⟨front, same, tail⟩ := exists_of_append_eq whole.symm longer
      refine .inr ⟨width front, ?_, front, after, tail, rfl, found.nonempty, ?_, found.solid,
        found.right⟩
      · rw [← place, same, width_append]
      · intro some
        obtain ⟨lead', last, rfl⟩ := List.eq_nil_or_concat' front |>.resolve_left some
        rw [← List.append_assoc] at same
        obtain ⟨rfl, last_eq⟩ := List.append_inj' same rfl
        cases last_eq
        have more : rest ≠ [] := by
          rw [tail]
          simp
        exact ⟨lead', blank, rfl, ends, (passes more lead').symm.trans outside⟩
  · intro parts
    rcases parts with ⟨rfl, rfl⟩ | ⟨more, rfl, before, after, whole, rfl, found⟩
    · exact ⟨[], rest, rfl, rfl, separate⟩
    · have some : rest ≠ [] := by
        rw [whole]
        exact List.append_ne_nil_of_right_ne_nil _
          (List.append_ne_nil_of_left_ne_nil found.nonempty _)
      refine ⟨first ++ before, after, by rw [whole, List.append_assoc], width_append _ _,
        found.nonempty, ?_, found.solid, found.right⟩
      intro _
      by_cases atStart : before = []
      · -- A token does not start with the blank that ends the first one.
        subst atStart
        obtain ⟨c, tail, rfl⟩ := List.exists_cons_of_ne_nil some
        have other := ne_blank found whole.symm
        rw [(separate.right some).2 c rfl] at other
        cases other
      · obtain ⟨lead, blank, rfl, ends, outside⟩ := found.left atStart
        exact ⟨first ++ lead, blank, by rw [List.append_assoc], ends,
          (passes some lead).trans outside⟩

end TokenAt

/-- The token at the start of a text is separate from the rest. -/
theorem separate_splitToken {c : Char} (solid : isAsciiBlank c = false) (rest : List Char) :
    Separate [] (splitToken none (c :: rest)).1 (splitToken none (c :: rest)).2 where
  nonempty := splitToken_ne_nil solid rest
  left := fun some => absurd rfl some
  solid := fun _ _ _ parts => solid_of_splitToken parts
  right := fun more => ⟨foldl_quoteAfter_splitToken more, head?_splitToken none (c :: rest)⟩

/-- Cutting a text finds its tokens. -/
theorem mem_tokens_iff {offset : Nat} {text : List Char} {place : Nat × List Char} :
    place ∈ tokens offset text ↔
      ∃ start, place.1 = offset + start ∧ TokenAt text start place.2 := by
  fun_induction tokens offset text with
  | case1 => simp [TokenAt.not_nil]
  | case2 offset c rest blank ih =>
    rw [ih]
    simp only [TokenAt.cons_iff blank]
    constructor
    · intro holds
      obtain ⟨start, place_eq, found⟩ := holds
      exact ⟨c.utf8Size + start, by omega, start, rfl, found⟩
    · intro holds
      obtain ⟨start, place_eq, more, start_eq, found⟩ := holds
      exact ⟨more, by omega, found⟩
  | case3 offset c rest solid parts ih =>
    have whole : c :: rest = parts.1 ++ parts.2 := (append_splitToken none (c :: rest)).symm
    have separate : Separate [] parts.1 parts.2 :=
      separate_splitToken ((Bool.not_eq_true _).mp solid) rest
    rw [whole, List.mem_cons, ih]
    simp only [TokenAt.append_iff separate]
    constructor
    · intro found
      rcases found with rfl | ⟨start, place_eq, found⟩
      · exact ⟨0, rfl, .inl ⟨rfl, rfl⟩⟩
      · exact ⟨width parts.1 + start, by omega, .inr ⟨start, rfl, found⟩⟩
    · intro holds
      obtain ⟨start, place_eq, found⟩ := holds
      rcases found with ⟨rfl, same⟩ | ⟨more, start_eq, found⟩
      · exact .inl (Prod.ext place_eq same)
      · exact .inr ⟨more, by omega, found⟩

/-- A value as it is written behind `=`, with the bytes that are left out before it: one pair of
equal quotes around it is no part of it. -/
inductive ValueOf : List Char → Nat → List Char → Prop
  | quoted {quote : Char} {inner : List Char} (mark : quote = '"' ∨ quote = '\'') :
      ValueOf (quote :: (inner ++ [quote])) 1 inner
  | bare {raw : List Char}
      (other : ∀ quote inner, quote = '"' ∨ quote = '\'' → raw ≠ quote :: (inner ++ [quote])) :
      ValueOf raw 0 raw

/-- What a token at an offset says: a key alone, or a key and a value divided by the first `=`. -/
inductive Spells (token : List Char) (offset : Nat) : Attribute → Prop
  | bare (plain : '=' ∉ token) :
      Spells token offset ⟨String.ofList token, ⟨offset, offset + width token⟩, none⟩
  | valued {key raw inner : List Char} {skipped : Nat} (whole : token = key ++ '=' :: raw)
      (plain : '=' ∉ key) (value : ValueOf raw skipped inner) :
      Spells token offset
        ⟨String.ofList key, ⟨offset, offset + width key⟩,
          some ⟨String.ofList inner,
            ⟨offset + width key + 1 + skipped, offset + width key + 1 + skipped + width inner⟩⟩⟩

/-- Taking off the quotes gives the value. -/
theorem ValueOf.unquote_eq {raw inner : List Char} {skipped : Nat}
    (value : ValueOf raw skipped inner) : unquote raw = (inner, skipped) := by
  cases value with
  | quoted mark =>
    rw [unquote, if_pos (by simpa using mark), List.dropLast_concat]
  | bare other =>
    unfold unquote
    split
    next quote front =>
      rw [if_neg]
      rw [Bool.and_eq_true, Bool.or_eq_true, decide_eq_true_iff, decide_eq_true_iff,
        decide_eq_true_iff]
      intro holds
      obtain ⟨mark, last⟩ := holds
      obtain ⟨inner, rfl⟩ := List.getLast?_eq_some_iff.1 last
      exact other quote inner mark rfl
    next => rfl

/-- What is left without the quotes is the value. -/
theorem valueOf_unquote (raw : List Char) : ValueOf raw (unquote raw).2 (unquote raw).1 := by
  by_cases quoted : ∃ quote inner, (quote = '"' ∨ quote = '\'') ∧ raw = quote :: (inner ++ [quote])
  · obtain ⟨quote, inner, mark, rfl⟩ := quoted
    rw [(ValueOf.quoted mark).unquote_eq]
    exact .quoted mark
  · have other : ∀ quote inner, quote = '"' ∨ quote = '\'' → raw ≠ quote :: (inner ++ [quote]) :=
      fun quote inner mark same => quoted ⟨quote, inner, mark, same⟩
    rw [(ValueOf.bare other).unquote_eq]
    exact .bare other

/-- A token has no key when there is nothing, or a slash only, in front of `=`. -/
theorem keyless_iff {key : List Char} :
    (key.isEmpty || decide (key = ['/'])) = true ↔
      ¬ (String.ofList key ≠ "" ∧ String.ofList key ≠ "/") := by
  rw [Bool.or_eq_true, List.isEmpty_iff, decide_eq_true_iff, ← String.toList_inj.ne,
    ← String.toList_inj.ne, String.toList_ofList]
  simp only [String.toList_empty, not_and_or, not_not]
  rfl

/-- Reading a token gives what it spells, if its key is one. -/
theorem spelled?_eq_some_iff {token : List Char} {offset : Nat} {found : Attribute} :
    spelled? token offset = some found ↔
      Spells token offset found ∧ found.key ≠ "" ∧ found.key ≠ "/" := by
  constructor
  · intro spells
    have whole := List.takeWhile_append_dropWhile (p := (· ≠ '=')) (l := token)
    have plain : '=' ∉ token.takeWhile (· ≠ '=') :=
      fun member => absurd (List.mem_takeWhile_imp member) (by simp)
    unfold spelled? at spells
    dsimp only at spells
    split at spells
    next => cases spells
    next keyed =>
      have named := not_not.1 (mt keyless_iff.2 keyed)
      split at spells
      next none =>
        rw [none, List.append_nil] at whole
        cases spells
        rw [whole] at plain named ⊢
        exact ⟨.bare plain, named⟩
      next c raw behind =>
        have divides := List.head?_dropWhile_not (· ≠ '=') token
        rw [behind] at divides whole
        obtain rfl : c = '=' := by simpa using divides
        cases spells
        exact ⟨.valued whole.symm plain (valueOf_unquote raw), named⟩
  · intro holds
    obtain ⟨spells, named⟩ := holds
    cases spells with
    | bare plain =>
      have passes : ∀ c ∈ token, decide (c ≠ '=') = true :=
        fun c member => decide_eq_true (ne_of_mem_of_not_mem member plain)
      unfold spelled?
      dsimp only
      rw [List.takeWhile_eq_self_iff.2 passes, List.dropWhile_eq_nil_iff.2 passes,
        if_neg (mt keyless_iff.1 (not_not.2 named))]
    | @valued key raw inner skipped whole plain value =>
      subst whole
      have passes : ∀ c ∈ key, decide (c ≠ '=') = true :=
        fun c member => decide_eq_true (ne_of_mem_of_not_mem member plain)
      have stops : ∀ c, ('=' :: raw).head? = some c → decide (c ≠ '=') = false := by simp
      obtain ⟨taken, dropped⟩ := takeWhile_dropWhile_append passes stops
      unfold spelled?
      dsimp only
      rw [taken, dropped, if_neg (mt keyless_iff.1 (not_not.2 named))]
      dsimp only
      rw [value.unquote_eq]

/-- The attributes of a text are what its tokens spell. -/
theorem mem_listed_iff {base : Nat} {text : List Char} {found : Attribute} :
    found ∈ listed base text ↔
      ∃ start token, TokenAt text start token ∧ Spells token (base + start) found ∧
        found.key ≠ "" ∧ found.key ≠ "/" := by
  rw [listed, List.mem_filterMap]
  constructor
  · intro holds
    obtain ⟨⟨place, token⟩, member, spells⟩ := holds
    obtain ⟨start, place_eq, token_at⟩ := mem_tokens_iff.1 member
    dsimp only at place_eq spells
    rw [place_eq, Nat.zero_add] at spells
    exact ⟨start, token, token_at, spelled?_eq_some_iff.1 spells⟩
  · intro holds
    obtain ⟨start, token, token_at, spells⟩ := holds
    refine ⟨(start, token), mem_tokens_iff.2 ⟨start, (Nat.zero_add start).symm, token_at⟩, ?_⟩
    exact spelled?_eq_some_iff.2 spells

/-- The ranges of an attribute: that of its key and that of its value, if it has one. -/
def ranges (found : Attribute) : List Span :=
  found.keySpan :: (found.value.map (·.span)).toList

/-- A range of a text that starts at a byte of the given number covers a part of the text. -/
structure Covers (base : Nat) (text : List Char) (range : Span) (part : List Char) : Prop where
  base_le : base ≤ range.start
  stop_le : range.stop ≤ base + width text
  covered : (⟨range.start - base, range.stop - base⟩ : Span).slice? text = some part

/-- An attribute is where its ranges say, in a text that starts at a byte of the given number. -/
structure Exact (base : Nat) (text : List Char) (found : Attribute) : Prop where
  named : found.key ≠ ""
  plain : '=' ∉ found.key.toList
  solid : found.key ≠ "/"
  key : Covers base text found.keySpan found.key.toList
  value : ∀ value, found.value = some value →
    found.keySpan.stop < value.span.start ∧ Covers base text value.span value.text.toList

/-- A span covers a part of a text at its offsets. -/
theorem covers_of_standsAt (base : Nat) {start : Nat} {text part : List Char}
    (stands : StandsAt text start part) :
    Covers base text ⟨base + start, base + start + width part⟩ part := by
  refine ⟨Nat.le_add_right _ _, ?_, ?_⟩
  · have inside := stands.stop_le
    dsimp only
    omega
  · rw [standsAt_iff_slice?] at stands
    rw [← stands]
    congr 2
    · exact Nat.add_sub_cancel_left _ _
    · dsimp only
      omega

section Spelled

variable {token : List Char} {offset : Nat} {found : Attribute}

/-- The value is a part of what is written. -/
theorem ValueOf.standsAt {raw inner : List Char} {skipped : Nat}
    (value : ValueOf raw skipped inner) : StandsAt raw skipped inner := by
  have stands := unquote_standsAt raw
  rwa [value.unquote_eq] at stands

/-- There is no `=` in a key. -/
theorem Spells.plain (spells : Spells token offset found) : '=' ∉ found.key.toList := by
  cases spells with
  | bare plain => rwa [String.toList_ofList]
  | valued whole plain value => rwa [String.toList_ofList]

/-- What the ranges of an attribute are in its token. -/
theorem Spells.standsAt (spells : Spells token offset found) :
    (found.keySpan = ⟨offset, offset + width found.key.toList⟩ ∧
        StandsAt token 0 found.key.toList) ∧
      ∀ value, found.value = some value →
        ∃ start, width found.key.toList < start ∧
          value.span = ⟨offset + start, offset + start + width value.text.toList⟩ ∧
          StandsAt token start value.text.toList := by
  cases spells with
  | bare plain =>
    rw [String.toList_ofList]
    refine ⟨⟨rfl, .self token⟩, ?_⟩
    intro value none
    cases none
  | @valued key raw inner skipped whole plain value =>
    rw [String.toList_ofList]
    have before : StandsAt token 0 key := ⟨[], '=' :: raw, by rw [whole]; rfl, rfl⟩
    have behind : StandsAt token (width key + 1) raw :=
      ⟨key ++ ['='], [], by rw [whole]; simp, width_append _ _⟩
    refine ⟨⟨rfl, before⟩, ?_⟩
    intro value' is
    cases is
    rw [String.toList_ofList]
    refine ⟨width key + 1 + skipped, by omega, ?_, behind.trans value.standsAt⟩
    simp only [Nat.add_assoc]

/-- The ranges of an attribute follow one another inside its token. -/
theorem Spells.ranges (spells : Spells token offset found) :
    found.ranges.Pairwise (fun first second => first.stop < second.start) ∧
      ∀ range ∈ found.ranges, offset ≤ range.start ∧ range.stop ≤ offset + width token := by
  obtain ⟨⟨key, inside⟩, values⟩ := spells.standsAt
  have key_le := inside.stop_le
  unfold Attribute.ranges
  rw [key]
  cases is : found.value with
  | none =>
    refine ⟨List.pairwise_singleton _ _, ?_⟩
    intro range member
    rw [List.mem_singleton.1 member]
    exact ⟨Nat.le_refl _, by dsimp only; omega⟩
  | some value =>
    obtain ⟨start, behind, span, within⟩ := values value is
    have value_le := within.stop_le
    rw [Option.map_some, Option.toList_some, span]
    refine ⟨List.pairwise_pair.2 (by dsimp only; omega), ?_⟩
    intro range member
    rcases List.mem_pair.1 member with rfl | rfl
    · exact ⟨Nat.le_refl _, by dsimp only; omega⟩
    · exact ⟨Nat.le_add_right _ _, by dsimp only; omega⟩

end Spelled

/-- Every listed attribute has exact spans. -/
theorem exact_of_mem {base : Nat} {text : List Char} {found : Attribute}
    (member : found ∈ listed base text) : Exact base text found := by
  obtain ⟨start, token, token_at, spells, named, solid⟩ := mem_listed_iff.1 member
  obtain ⟨⟨key, before⟩, values⟩ := spells.standsAt
  refine ⟨named, spells.plain, solid, ?_, ?_⟩
  · rw [key]
    exact covers_of_standsAt base (token_at.standsAt.trans before)
  · intro value is
    obtain ⟨more, behind, span, within⟩ := values value is
    have covers := covers_of_standsAt base (token_at.standsAt.trans within)
    rw [span, key]
    rw [← Nat.add_assoc] at covers
    exact ⟨by dsimp only; omega, covers⟩

/-- The ranges of all attributes of a text follow one another. -/
theorem ranges_pairwise (base : Nat) (text : List Char) :
    ((listed base text).flatMap ranges).Pairwise fun first second => first.stop < second.start := by
  rw [List.pairwise_flatMap]
  constructor
  · intro found member
    obtain ⟨start, token, -, spells, -⟩ := mem_listed_iff.1 member
    exact spells.ranges.1
  · rw [listed, List.pairwise_filterMap]
    apply (tokens_pairwise 0 text).imp
    intro first second apart found spells next spells' range member range' member'
    have within := ((spelled?_eq_some_iff.1 spells).1.ranges.2 range member).2
    have within' := ((spelled?_eq_some_iff.1 spells').1.ranges.2 range' member').1
    omega

/-- Reading an attribute text that ends below the limit succeeds, and reads it as it would be read
at the start of a file, all ranges moved. What is read is what the tokens of the text spell. Every
attribute has a key, with no `=` in it and other than `/`, and is where its ranges say; the ranges
of all attributes, each key before its value, follow one another. -/
theorem parse_ranges {base : Nat} {text : List Char} (fits : base + width text ≤ Offset.limit) :
    ∃ found, parse base text = .ok found ∧
      (∃ unmoved, parse 0 text = .ok unmoved ∧ found = unmoved.map (·.move base)) ∧
      (∀ one, one ∈ found ↔ ∃ start token, TokenAt text start token ∧
        Spells token (base + start) one ∧ one.key ≠ "" ∧ one.key ≠ "/") ∧
      (∀ one ∈ found, Exact base text one) ∧
      (found.flatMap ranges).Pairwise fun first second => first.stop < second.start := by
  have unmoved : 0 + width text ≤ Offset.limit := by omega
  have moved := listed_move base 0 text
  rw [Nat.zero_add] at moved
  refine ⟨listed base text, parse_eq_ok fits, ⟨listed 0 text, parse_eq_ok unmoved, moved⟩, ?_, ?_,
    ranges_pairwise base text⟩
  · intro one
    exact mem_listed_iff
  · intro one member
    exact exact_of_mem member

/-- So it is at the limit, with a key of two bytes, a value without text, tokens that are no
attributes and a quote that is never closed. One byte further the text cannot be read. -/
theorem parse_ranges_unbalanced :
    let text := " é='x y' b= =c / d=\"q".toList
    4294967273 + width text ≤ Offset.limit ∧ parse 4294967274 text = .error .overflow ∧
      ∃ found, parse 4294967273 text = .ok found ∧
        found.map (fun one => (one.key, one.value.map (·.text))) =
          [("é", some "x y"), ("b", some ""), ("d", some "\"q")] ∧
        (∀ one ∈ found, Exact 4294967273 text one) ∧
        (found.flatMap ranges).Pairwise fun first second => first.stop < second.start := by
  intro text
  have fits : 4294967273 + width text ≤ Offset.limit := by decide +kernel
  have texts : (parse 4294967273 text).toOption.map (List.map fun one =>
      (one.key, one.value.map (·.text))) =
        some [("é", some "x y"), ("b", some ""), ("d", some "\"q")] := by
    decide +kernel
  obtain ⟨found, read, -, -, exact, ordered⟩ := parse_ranges fits
  rw [read] at texts
  exact ⟨fits, by decide +kernel, found, read, Option.some.inj texts, exact, ordered⟩

end SfcIndex.Markup.Attribute
