import SfcIndex.Markup.Attribute
import SfcIndex.Proofs.Text.Checked

/-! # Attributes without a limit on offsets

`Attribute.listed` reads an attribute text with offsets of any size. Checked reading gives the same
attributes (`Attribute.parse_gives`), and it succeeds when the text ends below the limit.
-/

namespace SfcIndex.Markup.Attribute

open Text

/-- The attribute that a token at an offset of any size spells. -/
def spelled? (token : List Char) (offset : Nat) : Option Attribute :=
  let key := token.takeWhile (· ≠ '=')
  if key.isEmpty || key = ['/'] then none
  else
    let keySpan : Span := ⟨offset, offset + width key⟩
    match token.dropWhile (· ≠ '=') with
    | [] => some ⟨String.ofList key, keySpan, none⟩
    | _ :: raw =>
      let start := keySpan.stop + 1 + (unquote raw).2
      let inner := (unquote raw).1
      some ⟨String.ofList key, keySpan, some ⟨String.ofList inner, ⟨start, start + width inner⟩⟩⟩

/-- The attributes of an attribute text that starts at a byte of any number. -/
def listed (base : Nat) (text : List Char) : List Attribute :=
  (tokens 0 text).filterMap fun (start, token) => spelled? token (base + start)

/-- What is left of a value without its quotes is not longer than the value. -/
theorem width_unquote_le (raw : List Char) :
    (unquote raw).2 + width (unquote raw).1 ≤ width raw := by
  unfold unquote
  split
  next quote inner =>
    split
    next quoted =>
      have size : width inner.dropLast ≤ width inner := by
        obtain ⟨tail, same⟩ := List.dropLast_prefix inner
        have := congrArg width same
        rw [width_append] at this
        omega
      have := quote.utf8Size_pos
      simp only [width_cons]
      omega
    next => simp
  next => simp

/-- Whether the sums that reading a token at an offset needs stay below the limit. -/
def TokenFits (token : List Char) (offset : Nat) : Prop :=
  (spelled? token offset).elim True fun found =>
    found.keySpan.stop ≤ Offset.limit ∧
      found.value.elim True fun value => value.span.stop ≤ Offset.limit

/-- A token gives the attribute that it spells when its offsets fit. -/
theorem ofToken?_gives (token : List Char) (offset : Nat) :
    Offset.Gives (ofToken? token offset) (TokenFits token offset) (spelled? token offset) := by
  unfold ofToken? TokenFits spelled?
  dsimp only
  have keyStop := Offset.gives_add offset (width (token.takeWhile (· ≠ '=')))
  by_cases keyless : ((token.takeWhile (· ≠ '=')).isEmpty ||
      decide (token.takeWhile (· ≠ '=') = ['/'])) = true
  · rw [if_pos keyless, if_pos keyless]
    exact Offset.Gives.ok none
  · rw [if_neg keyless, if_neg keyless]
    cases token.dropWhile (· ≠ '=') with
    | nil =>
      exact (keyStop.map _).congr (by simp only [Option.elim_some, Option.elim_none, and_true])
    | cons c raw =>
      refine (keyStop.bind ((Offset.gives_add _ 1).bind ((Offset.gives_add _ _).bind
        ((Offset.gives_add _ _).map _)))).congr ?_
      simp only [Option.elim_some]
      omega

/-- An attribute lies in its token, and the span of a value is as wide as the value. -/
theorem spelled?_bounds {token : List Char} {offset : Nat} {found : Attribute}
    (spells : spelled? token offset = some found) :
    found.keySpan.stop ≤ offset + width token ∧
      ∀ value, found.value = some value →
        value.span.stop = value.span.start + width value.text.toList ∧
          value.span.stop ≤ offset + width token := by
  have whole := congrArg width (List.takeWhile_append_dropWhile (p := (· ≠ '=')) (l := token))
  rw [width_append] at whole
  unfold spelled? at spells
  dsimp only at spells
  split at spells
  next => cases spells
  next =>
    split at spells
    next =>
      cases spells
      refine ⟨by dsimp only; omega, ?_⟩
      intro value none
      cases none
    next c raw equals =>
      have size := width_unquote_le raw
      have := c.utf8Size_pos
      rw [equals, width_cons] at whole
      cases spells
      refine ⟨by dsimp only; omega, ?_⟩
      intro value is
      cases is
      rw [String.toList_ofList]
      exact ⟨rfl, by dsimp only; omega⟩

/-- A token fits when it ends below the limit. -/
theorem tokenFits_of_width_le {token : List Char} {offset : Nat}
    (fits : offset + width token ≤ Offset.limit) : TokenFits token offset := by
  unfold TokenFits
  cases spells : spelled? token offset with
  | none => trivial
  | some found =>
    obtain ⟨key, values⟩ := spelled?_bounds spells
    refine ⟨Nat.le_trans key fits, ?_⟩
    cases is : found.value with
    | none => trivial
    | some value => exact Nat.le_trans (values value is).2 fits

/-- Checked reading gives the attributes, if every token fits. -/
theorem parse_gives (base : Nat) (text : List Char) :
    Offset.Gives (parse base text)
      (∀ place ∈ tokens 0 text, base + place.1 ≤ Offset.limit ∧
        TokenFits place.2 (base + place.1))
      (listed base text) := by
  have each : ∀ place ∈ tokens 0 text,
      Offset.Gives (Offset.add base place.1 >>= fun offset => ofToken? place.2 offset)
        (base + place.1 ≤ Offset.limit ∧ TokenFits place.2 (base + place.1))
        (spelled? place.2 (base + place.1)) :=
    fun place _ => (Offset.gives_add base place.1).bind (ofToken?_gives _ _)
  have all := (Offset.Gives.mapM each).map (List.filterMap id)
  rw [List.filterMap_map] at all
  exact all

/-- Tokens end inside the text they are cut from. -/
theorem stop_le_of_mem_tokens {offset : Nat} {text : List Char} {place : Nat × List Char}
    (member : place ∈ tokens offset text) : place.1 + width place.2 ≤ offset + width text := by
  fun_induction tokens offset text with
  | case1 => simp at member
  | case2 offset c rest blank ih =>
    have := ih member
    rw [width_cons]
    omega
  | case3 offset c rest solid parts ih =>
    have whole : width parts.1 + width parts.2 = width (c :: rest) := by
      rw [← width_append, append_splitToken]
    rcases List.mem_cons.1 member with rfl | later
    · dsimp only
      omega
    · have := ih later
      omega

/-- An attribute text that ends below the limit can be read. -/
theorem parse_eq_ok {base : Nat} {text : List Char} (fits : base + width text ≤ Offset.limit) :
    parse base text = .ok (listed base text) := by
  refine (parse_gives base text).eq_ok ?_
  intro place member
  have := stop_le_of_mem_tokens member
  exact ⟨by omega, tokenFits_of_width_le (by omega)⟩

/-- The values of attributes lie in the text that the attributes are read from. -/
theorem value_bounds {base : Nat} {text : List Char} {found : Attribute} {value : AttributeValue}
    (member : found ∈ listed base text) (is : found.value = some value) :
    value.span.stop = value.span.start + width value.text.toList ∧
      value.span.stop ≤ base + width text := by
  obtain ⟨⟨start, token⟩, place, spells⟩ := List.mem_filterMap.1 member
  have inside := stop_le_of_mem_tokens place
  obtain ⟨size, below⟩ := (spelled?_bounds spells).2 value is
  exact ⟨size, by dsimp only at inside; omega⟩

end SfcIndex.Markup.Attribute
