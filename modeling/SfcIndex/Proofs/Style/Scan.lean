import Mathlib.Data.List.TakeWhile
import SfcIndex.Proofs.Text.Place
import SfcIndex.Style

/-! # Where the names of a style stand

Every name of a style ends at its position, with its sigil in front (`Style.selects_of_mem_scan`),
and the names follow one another (`Style.scan_pairwise`).
-/

namespace SfcIndex.Style

open Text

/-- The binding is that of a selector in a text that is read from byte `offset` on. -/
structure Selects (offset : Nat) (text : List Char) (binding : Binding) (start : Nat)
    (sigil : Char) : Prop where
  named : binding.name ≠ ""
  word : ∀ c ∈ binding.name.toList, isSelectorChar c = true
  category : sigilCategory? sigil = some binding.category
  stands : StandsAt text start (sigil :: binding.name.toList)
  position : binding.position = offset + start + width (sigil :: binding.name.toList)
  unlimited : binding.scope = none

/-- A selector stays one behind more text. -/
theorem Selects.behind {offset start : Nat} {rest : List Char} {binding : Binding} {sigil : Char}
    (front : List Char) (selects : Selects (offset + width front) rest binding start sigil) :
    Selects offset (front ++ rest) binding (width front + start) sigil := by
  have behind : StandsAt (front ++ rest) (width front) rest := ⟨front, [], by simp, rfl⟩
  refine ⟨selects.named, selects.word, selects.category, behind.trans selects.stands, ?_,
    selects.unlimited⟩
  rw [selects.position, Nat.add_assoc offset]

/-- There are two sigils, `#` for identifiers and `.` for classes. -/
theorem eq_of_sigilCategory? {sigil : Char} {category : Category}
    (found : sigilCategory? sigil = some category) :
    (sigil = '#' ∧ category = .styleId) ∨ (sigil = '.' ∧ category = .styleClass) := by
  unfold sigilCategory? at found
  split at found
  next hash => exact .inl ⟨hash, (Option.some.inj found).symm⟩
  next =>
    split at found
    next dot => exact .inr ⟨dot, (Option.some.inj found).symm⟩
    next => cases found

/-- What a selector names is seen everywhere. -/
theorem isScoped_eq_false {sigil : Char} {category : Category}
    (found : sigilCategory? sigil = some category) : category.isScoped = false := by
  rcases eq_of_sigilCategory? found with ⟨-, rfl⟩ | ⟨-, rfl⟩
  · rfl
  · rfl

/-- The name of a selector is the longest run of name characters, and not empty. -/
theorem eq_of_selectorName? {text name : List Char} (found : selectorName? text = some name) :
    name ≠ [] ∧ name = text.takeWhile isSelectorChar := by
  unfold selectorName? at found
  dsimp only at found
  split at found
  · cases found
  · next some =>
    split at found
    · cases found
      exact ⟨fun none => some (List.isEmpty_iff.2 none), rfl⟩
    · cases found

/-- Every binding of the scan is a selector of the text. -/
theorem selects_of_mem_scan {offset : Nat} {place : Place} {text : List Char} {binding : Binding}
    (member : binding ∈ scan offset place text) :
    ∃ start sigil, Selects offset text binding start sigil := by
  fun_induction scan offset place text with
  | case1 => cases member
  | case2 offset rest ih =>
    obtain ⟨start, sigil, selects⟩ := ih member
    exact ⟨_, sigil, selects.behind ['*', '/']⟩
  | case3 offset c rest _ ih =>
    obtain ⟨start, sigil, selects⟩ := ih member
    exact ⟨_, sigil, selects.behind [c]⟩
  | case4 offset rest ih =>
    obtain ⟨start, sigil, selects⟩ := ih member
    exact ⟨_, sigil, selects.behind ['/', '*']⟩
  | case5 offset c rest _ later category name found sigil ih =>
    rcases List.mem_cons.1 member with rfl | behind
    · obtain ⟨some, taken⟩ := eq_of_selectorName? found
      refine ⟨0, c, ?_, ?_, sigil, ?_, ?_, rfl⟩
      · intro none
        rw [← String.toList_eq_nil_iff, String.toList_ofList] at none
        exact some none
      · rw [String.toList_ofList, taken]
        exact fun d => List.mem_takeWhile_imp
      · refine ⟨[], rest.dropWhile isSelectorChar, ?_, rfl⟩
        rw [String.toList_ofList, taken, List.nil_append, List.cons_append,
          List.takeWhile_append_dropWhile]
      · rw [String.toList_ofList, width_cons]
        exact Nat.add_assoc _ _ _
    · obtain ⟨start, sigil, selects⟩ := ih behind
      exact ⟨_, sigil, selects.behind [c]⟩
  | case6 offset c rest _ later _ ih =>
    obtain ⟨start, sigil, selects⟩ := ih member
    exact ⟨_, sigil, selects.behind [c]⟩

/-- The name of a selector stands behind the start of the scan. -/
theorem lt_position_of_mem_scan {offset : Nat} {place : Place} {text : List Char}
    {binding : Binding} (member : binding ∈ scan offset place text) :
    offset < binding.position := by
  obtain ⟨start, sigil, selects⟩ := selects_of_mem_scan member
  have positive := sigil.utf8Size_pos
  rw [selects.position, width_cons]
  omega

/-- A scan goes through a selector's name without finding anything in it. -/
theorem scan_append_selector {name : List Char} (word : ∀ c ∈ name, isSelectorChar c = true)
    (offset : Nat) (rest : List Char) :
    scan offset .rules (name ++ rest) = scan (offset + width name) .rules rest := by
  induction name generalizing offset with
  | nil => rfl
  | cons c name ih =>
    have part := word c List.mem_cons_self
    have away : ∀ other, isSelectorChar other = false → c ≠ other := by
      rintro other none rfl
      rw [none] at part
      cases part
    have plain : sigilCategory? c = none := by
      rw [sigilCategory?, if_neg (away '#' (by decide)), if_neg (away '.' (by decide))]
    have slash := away '/' (by decide)
    rw [List.cons_append, scan, plain]
    · dsimp only
      rw [ih (fun d member => word d (List.mem_cons_of_mem _ member)), width_cons, Nat.add_assoc]
    · intro after is
      exact absurd is slash

/-- The scan finds selectors from the left to the right. -/
theorem scan_pairwise (offset : Nat) (place : Place) (text : List Char) :
    (scan offset place text).Pairwise fun first second => first.position < second.position := by
  fun_induction scan offset place text with
  | case1 => exact .nil
  | case2 offset rest ih => exact ih
  | case3 offset c rest _ ih => exact ih
  | case4 offset rest ih => exact ih
  | case5 offset c rest _ later category name found sigil ih =>
    refine List.pairwise_cons.2 ⟨?_, ih⟩
    intro binding member
    obtain ⟨-, taken⟩ := eq_of_selectorName? found
    have word : ∀ d ∈ name, isSelectorChar d = true := by
      rw [taken]
      exact fun d => List.mem_takeWhile_imp
    have skipped := scan_append_selector word (offset + c.utf8Size) (rest.dropWhile isSelectorChar)
    rw [taken, List.takeWhile_append_dropWhile, ← taken] at skipped
    have behind : binding ∈ scan (offset + c.utf8Size) .rules rest := member
    rw [skipped] at behind
    exact lt_position_of_mem_scan behind
  | case6 offset c rest _ later _ ih => exact ih

end SfcIndex.Style
