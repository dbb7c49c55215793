import SfcIndex.Proofs.Text.Slice
import SfcIndex.Proofs.Text.Words
import SfcIndex.Text.Ascii

/-! # Texts that differ in case

Making the letters of a text small changes no mark, no blank and no offset. `Recased` relates two
texts that are equal but for the case of letters at some offsets; what a span covers away from these
offsets is the same in both (`Recased.slice?_eq`).
-/

namespace SfcIndex.Text

/-- The name with its ASCII capitals made small. -/
def lowerName (name : String) : String := String.ofList (asciiFold name.toList)

/-- Lowering a name is folding its characters. -/
theorem toList_lowerName (name : String) : (lowerName name).toList = asciiFold name.toList :=
  String.toList_ofList

/-- Lowering a name that is given by its characters folds these. -/
theorem lowerName_ofList (name : List Char) :
    lowerName (String.ofList name) = String.ofList (asciiFold name) := by
  rw [lowerName, String.toList_ofList]

/-- Only letters change when they are made small, and they become letters. -/
theorem toLower_eq_iff {c mark : Char} (unlettered : mark.isAlpha = false) :
    c.toLower = mark ↔ c = mark := by
  have upper : ¬ (65 ≤ mark.toNat ∧ mark.toNat ≤ 90) := by
    intro range
    have alpha : mark.isAlpha = true := Bool.or_eq_true_iff.2 (.inl (decide_eq_true range))
    rw [alpha] at unlettered
    cases unlettered
  have lower : ¬ (97 ≤ mark.toNat ∧ mark.toNat ≤ 122) := by
    rintro ⟨least, most⟩
    have small : mark.isLower = true :=
      Bool.and_eq_true_iff.2 ⟨decide_eq_true least, decide_eq_true most⟩
    have alpha : mark.isAlpha = true := Bool.or_eq_true_iff.2 (.inr small)
    rw [alpha] at unlettered
    cases unlettered
  rw [← Char.toNat_inj, ← Char.toNat_inj, toNat_toLower]
  split <;> omega

theorem toLower_toLower (c : Char) : c.toLower.toLower = c.toLower := by
  have small : ¬ (65 ≤ c.toLower.toNat ∧ c.toLower.toNat ≤ 90) := by
    rw [toNat_toLower]
    split <;> omega
  rw [← Char.toNat_inj, toNat_toLower c.toLower, if_neg small]

/-- Lowering a character keeps its width. -/
theorem utf8Size_toLower (c : Char) : c.toLower.utf8Size = c.utf8Size := by
  by_cases upper : 65 ≤ c.toNat ∧ c.toNat ≤ 90
  · have size := toNat_toLower c
    rw [if_pos upper] at size
    have small : c.toLower.val ≤ 127 := by
      change c.toLower.toNat ≤ 127
      omega
    have given : c.val ≤ 127 := by
      change c.toNat ≤ 127
      omega
    rw [Char.utf8Size_eq_one_iff.2 small, Char.utf8Size_eq_one_iff.2 given]
  · have range : ¬ (c.val ≥ 'A'.val ∧ c.val ≤ 'Z'.val) := upper
    have same : c.toLower = c := dif_neg range
    rw [same]

/-- Lowering a character makes no blank and loses none. -/
theorem isAsciiBlank_toLower (c : Char) : isAsciiBlank c.toLower = isAsciiBlank c := by
  have same {mark : Char} (unlettered : mark.isAlpha = false) :
      decide (c.toLower = mark) = decide (c = mark) :=
    decide_eq_decide.2 (toLower_eq_iff unlettered)
  unfold isAsciiBlank
  rw [same (by decide), same (by decide), same (by decide), same (by decide), same (by decide)]

theorem asciiFold_cons (c : Char) (rest : List Char) :
    asciiFold (c :: rest) = c.toLower :: asciiFold rest := rfl

theorem asciiFold_asciiFold (text : List Char) : asciiFold (asciiFold text) = asciiFold text := by
  unfold asciiFold
  rw [List.map_map]
  apply List.map_congr_left
  intro c _
  exact toLower_toLower c

/-- Folding a text keeps its width. -/
theorem width_asciiFold (text : List Char) : width (asciiFold text) = width text := by
  induction text with
  | nil => rfl
  | cons c rest ih => rw [asciiFold_cons, width_cons, width_cons, utf8Size_toLower, ih]

/-- A mark stands where it stood. -/
theorem asciiFold_eq_cons_iff {text lowered : List Char} {mark : Char}
    (unlettered : mark.isAlpha = false) :
    asciiFold text = mark :: lowered ↔ ∃ rest, text = mark :: rest ∧ asciiFold rest = lowered := by
  constructor
  · intro folded
    obtain ⟨c, rest, rfl, first, later⟩ := List.map_eq_cons_iff.1 folded
    cases (toLower_eq_iff unlettered).1 first
    exact ⟨rest, rfl, later⟩
  · rintro ⟨rest, rfl, rfl⟩
    rw [asciiFold_cons, (toLower_eq_iff unlettered).2 rfl]

section Tests

variable {test : Char → Bool} (caseless : ∀ c : Char, test c.toLower = test c) (text : List Char)
include caseless

/-- A test that sees no case passes the same run of a folded text. -/
theorem takeWhile_asciiFold :
    (asciiFold text).takeWhile test = asciiFold (text.takeWhile test) := by
  have same : test ∘ Char.toLower = test := funext caseless
  rw [asciiFold, List.takeWhile_map, same, asciiFold]

/-- A test that sees no case leaves the same rest of a folded text. -/
theorem dropWhile_asciiFold :
    (asciiFold text).dropWhile test = asciiFold (text.dropWhile test) := by
  have same : test ∘ Char.toLower = test := funext caseless
  rw [asciiFold, List.dropWhile_map, same, asciiFold]

end Tests

/-- Names are compared without their case. -/
theorem sameName_lowerName (left right : String) :
    sameName (lowerName left) (lowerName right) = sameName left right := by
  rw [sameName, sameName, toList_lowerName, toList_lowerName, asciiFold_asciiFold,
    asciiFold_asciiFold]

theorem sameName_lowerName_left (left right : String) :
    sameName (lowerName left) right = sameName left right := by
  rw [sameName, sameName, toList_lowerName, asciiFold_asciiFold]

/-- The case of the second of two compared names does not count. -/
theorem sameName_lowerName_right (left right : String) :
    sameName left (lowerName right) = sameName left right := by
  rw [sameName, sameName, toList_lowerName, asciiFold_asciiFold]

/-- Two texts from an offset on are equal but for the case of ASCII letters at free offsets. -/
def Recased (free : Nat → Prop) : Nat → List Char → List Char → Prop
  | _, [], [] => True
  | offset, c :: rest, c' :: rest' =>
    (c' = c ∨ free offset ∧ c'.toLower = c.toLower) ∧ Recased free (offset + c.utf8Size) rest rest'
  | _, _, _ => False

instance decidableRecased (free : Nat → Prop) [DecidablePred free] :
    ∀ offset text text', Decidable (Recased free offset text text')
  | _, [], [] => .isTrue trivial
  | offset, c :: rest, c' :: rest' =>
    have := decidableRecased free (offset + c.utf8Size) rest rest'
    inferInstanceAs (Decidable ((c' = c ∨ free offset ∧ c'.toLower = c.toLower) ∧ _))
  | _, [], _ :: _ => .isFalse id
  | _, _ :: _, [] => .isFalse id

namespace Recased

variable {free : Nat → Prop} {offset : Nat} {text text' : List Char}

/-- A text that is written in another case folds to the same text. -/
theorem asciiFold_eq (recased : Recased free offset text text') :
    asciiFold text' = asciiFold text := by
  fun_induction Recased free offset text text' with
  | case1 => rfl
  | case2 offset c rest c' rest' ih =>
    obtain ⟨letter, later⟩ := recased
    have lower : c'.toLower = c.toLower := by
      rcases letter with rfl | ⟨-, same⟩
      · rfl
      · exact same
    rw [asciiFold_cons, asciiFold_cons, lower, ih later]
  | case3 => exact False.elim recased

/-- A text that is written in another case has the same width. -/
theorem width_eq (recased : Recased free offset text text') : width text' = width text := by
  rw [← width_asciiFold, recased.asciiFold_eq, width_asciiFold]

/-- A change of case can be undone. -/
theorem symm (recased : Recased free offset text text') : Recased free offset text' text := by
  fun_induction Recased free offset text text' with
  | case1 => trivial
  | case2 offset c rest c' rest' ih =>
    obtain ⟨letter, later⟩ := recased
    rw [Recased]
    rcases letter with rfl | ⟨mayChange, same⟩
    · exact ⟨.inl rfl, ih later⟩
    · have size : c'.utf8Size = c.utf8Size := by rw [← utf8Size_toLower, same, utf8Size_toLower]
      rw [size]
      exact ⟨.inr ⟨mayChange, same.symm⟩, ih later⟩
  | case3 => exact False.elim recased

/-- Nothing need change. -/
theorem refl (free : Nat → Prop) (offset : Nat) (text : List Char) :
    Recased free offset text text := by
  induction text generalizing offset with
  | nil => trivial
  | cons c rest ih => exact ⟨.inl rfl, ih _⟩

/-- One letter at a free offset may change. -/
theorem change {c c' : Char} {before after : List Char} (text_eq : text = before ++ c :: after)
    (text_eq' : text' = before ++ c' :: after) (mayChange : free (offset + width before))
    (same : c'.toLower = c.toLower) : Recased free offset text text' := by
  subst text_eq text_eq'
  induction before generalizing offset with
  | nil => exact ⟨.inr ⟨mayChange, same⟩, refl free _ after⟩
  | cons first rest ih =>
    rw [width_cons, ← Nat.add_assoc] at mayChange
    exact ⟨.inl rfl, ih mayChange⟩

/-- The parts of a text change on their own. -/
theorem exists_of_append {first second : List Char}
    (recased : Recased free offset (first ++ second) text') :
    ∃ first' second', text' = first' ++ second' ∧ Recased free offset first first' ∧
      Recased free (offset + width first) second second' := by
  induction first generalizing offset text' with
  | nil => exact ⟨[], text', rfl, trivial, recased⟩
  | cons c rest ih =>
    cases text' with
    | nil => exact False.elim recased
    | cons c' rest' =>
      obtain ⟨letter, later⟩ := recased
      obtain ⟨first', second', rfl, left, right⟩ := ih later
      refine ⟨c' :: first', second', rfl, ⟨letter, left⟩, ?_⟩
      rwa [width_cons, ← Nat.add_assoc]

/-- A text without free offsets stays as it is. -/
theorem eq_of_fixed (recased : Recased free offset text text')
    (fixed : ∀ place, offset ≤ place → place < offset + width text → ¬ free place) :
    text' = text := by
  fun_induction Recased free offset text text' with
  | case1 => rfl
  | case2 offset c rest c' rest' ih =>
    obtain ⟨letter, later⟩ := recased
    have positive := c.utf8Size_pos
    rw [width_cons] at fixed
    have first : c' = c := by
      rcases letter with same | ⟨mayChange, -⟩
      · exact same
      · exact absurd mayChange (fixed offset (Nat.le_refl _) (by omega))
    have behind := ih later fun place after before => fixed place (by omega) (by omega)
    rw [first, behind]
  | case3 => exact False.elim recased

/-- A part of a text in which no character is free is not changed. -/
theorem slice?_of_fixed (recased : Recased free 0 text text') {span : Span} {part : List Char}
    (fixed : ∀ place, span.start ≤ place → place < span.stop → ¬ free place)
    (covers : span.slice? text = some part) : span.slice? text' = some part := by
  obtain ⟨before, after, rfl, start, stop⟩ := Span.slice?_eq_some_iff.1 covers
  obtain ⟨before', later, rfl, front, rest⟩ := recased.exists_of_append
  obtain ⟨part', after', rfl, inside, -⟩ := rest.exists_of_append
  have same : part' = part := inside.eq_of_fixed fun place after before =>
    fixed place (by omega) (by omega)
  rw [same]
  exact Span.slice?_of_parts before' after' rfl (start.trans front.width_eq.symm) stop

/-- A span away from the free offsets covers the same of both texts. -/
theorem slice?_eq (recased : Recased free 0 text text') {span : Span}
    (fixed : ∀ place, span.start ≤ place → place < span.stop → ¬ free place) :
    span.slice? text' = span.slice? text := by
  apply Option.ext
  intro part
  exact ⟨recased.symm.slice?_of_fixed fixed, recased.slice?_of_fixed fixed⟩

end Recased

end SfcIndex.Text
