import Mathlib.Tactic.Common
import SfcIndex.Text.Span

/-! # Checked computations

A computation with offsets fails when a sum is too large, so such a computation is known once it is
known which value it gives and when.
-/

namespace SfcIndex.Offset

variable {α β : Type}

/-- The computation gives `value` when `fits` holds and overflows otherwise. -/
structure Gives (computation : Except OffsetError α) (fits : Prop) (value : α) : Prop where
  eq_ok : fits → computation = .ok value
  eq_overflow : ¬ fits → computation = .error .overflow

namespace Gives

variable {computation other : Except OffsetError α} {fits fits' : Prop} {value : α}

/-- A computation that succeeds has what it takes. -/
theorem fits_of_ok {result : α} (gives : Gives computation fits value)
    (succeeds : computation = .ok result) : fits := by
  by_contra misses
  cases succeeds.symm.trans (gives.eq_overflow misses)

/-- A computation that succeeds gives its value. -/
theorem eq_of_ok {result : α} (gives : Gives computation fits value)
    (succeeds : computation = .ok result) : result = value := by
  have given := gives.eq_ok (gives.fits_of_ok succeeds)
  exact Except.ok.inj (succeeds.symm.trans given)

/-- What a computation takes can be said in other words. -/
theorem congr (gives : Gives computation fits value) (same : fits ↔ fits') :
    Gives computation fits' value :=
  ⟨fun holds => gives.eq_ok (same.2 holds), fun misses => gives.eq_overflow (mt same.1 misses)⟩

/-- Two computations of one value that succeed together are the same: there is only one way to
fail. -/
theorem unique (first : Gives computation fits value) (second : Gives other fits value) :
    computation = other := by
  by_cases holds : fits
  · rw [first.eq_ok holds, second.eq_ok holds]
  · rw [first.eq_overflow holds, second.eq_overflow holds]

/-- A value is given whatever holds. -/
theorem ok (value : α) : Gives (.ok value) True value :=
  ⟨fun _ => rfl, fun misses => absurd trivial misses⟩

theorem bind {next : α → Except OffsetError β} {result : β}
    (first : Gives computation fits value) (second : Gives (next value) fits' result) :
    Gives (computation >>= next) (fits ∧ fits') result := by
  constructor
  · intro holds
    rw [first.eq_ok holds.1]
    exact second.eq_ok holds.2
  · intro misses
    by_cases holds : fits
    · rw [first.eq_ok holds]
      exact second.eq_overflow fun holds' => misses ⟨holds, holds'⟩
    · rw [first.eq_overflow holds]
      rfl

/-- A checked value that is changed afterwards keeps its condition. -/
theorem map (gives : Gives computation fits value) (change : α → β) :
    Gives (computation >>= fun found => pure (change found)) fits (change value) :=
  (gives.bind (ok (change value))).congr (and_iff_left trivial)

/-- A list of checked values is given when all of them are. -/
theorem mapM {values : List β} {compute : β → Except OffsetError α} {suits : β → Prop}
    {change : β → α} (each : ∀ x ∈ values, Gives (compute x) (suits x) (change x)) :
    Gives (values.mapM compute) (∀ x ∈ values, suits x) (values.map change) := by
  induction values with
  | nil => exact (ok []).congr (by simp)
  | cons first rest ih =>
    have head := each first List.mem_cons_self
    have tail := ih fun x member => each x (List.mem_cons_of_mem _ member)
    rw [List.mapM_cons]
    exact (head.bind (tail.map _)).congr (by simp)

end Gives

/-- A list of computations that all succeed succeeds with their results. -/
theorem mapM_eq_ok {ε : Type} {values : List β} {compute : β → Except ε α} {change : β → α}
    (each : ∀ x ∈ values, compute x = .ok (change x)) :
    values.mapM compute = .ok (values.map change) := by
  induction values with
  | nil => rfl
  | cons first rest ih =>
    rw [List.mapM_cons, each first List.mem_cons_self,
      ih fun x member => each x (List.mem_cons_of_mem _ member)]
    rfl

/-- A sequence succeeds when both of its steps do. -/
theorem exists_of_bind {ε : Type} {computation : Except ε α} {next : α → Except ε β}
    {result : β} (succeeds : (computation >>= next) = .ok result) :
    ∃ found, computation = .ok found ∧ next found = .ok result := by
  cases computation with
  | error cause => cases succeeds
  | ok found => exact ⟨found, rfl, succeeds⟩

theorem exists_of_mapM_cons {first : β} {rest : List β} {compute : β → Except OffsetError α}
    {results : List α} (succeeds : (first :: rest).mapM compute = .ok results) :
    ∃ head tail, compute first = .ok head ∧ rest.mapM compute = .ok tail ∧
      results = head :: tail := by
  rw [List.mapM_cons] at succeeds
  obtain ⟨head, first_eq, succeeds⟩ := exists_of_bind succeeds
  obtain ⟨tail, rest_eq, succeeds⟩ := exists_of_bind succeeds
  cases succeeds
  exact ⟨head, tail, first_eq, rest_eq, rfl⟩

/-- Where a computation over two lists succeeds, it succeeds over each of them. -/
theorem exists_of_mapM_append {first second : List β} {compute : β → Except OffsetError α}
    {results : List α} (succeeds : (first ++ second).mapM compute = .ok results) :
    ∃ front back, first.mapM compute = .ok front ∧ second.mapM compute = .ok back ∧
      results = front ++ back := by
  rw [List.mapM_append] at succeeds
  obtain ⟨front, first_eq, succeeds⟩ := exists_of_bind succeeds
  obtain ⟨back, second_eq, succeeds⟩ := exists_of_bind succeeds
  cases succeeds
  exact ⟨front, back, first_eq, second_eq, rfl⟩

/-- The computation gives no other value than `value`, if any. -/
def Only (computation : Except OffsetError α) (value : α) : Prop :=
  ∀ result, computation = .ok result → result = value

/-- What is given under a condition is the only value that there can be. -/
theorem Gives.only {computation : Except OffsetError α} {fits : Prop} {value : α}
    (gives : Gives computation fits value) : Only computation value :=
  fun _ succeeds => gives.eq_of_ok succeeds

namespace Only

variable {computation : Except OffsetError α} {value : α}

theorem ok (value : α) : Only (.ok value) value := by
  intro result succeeds
  cases succeeds
  rfl

theorem bind {next : α → Except OffsetError β} {result : β} (first : Only computation value)
    (second : Only (next value) result) : Only (computation >>= next) result := by
  intro outcome succeeds
  obtain ⟨found, given, succeeds⟩ := exists_of_bind succeeds
  cases first found given
  exact second outcome succeeds

/-- A change of the only value gives the only changed value. -/
theorem map (only : Only computation value) (change : α → β) :
    Only (computation >>= fun found => pure (change found)) (change value) :=
  only.bind (ok (change value))

/-- A list of computations with one possible value each has one possible list of values. -/
theorem mapM {values : List β} {compute : β → Except OffsetError α} {change : β → α}
    (each : ∀ x ∈ values, Only (compute x) (change x)) :
    Only (values.mapM compute) (values.map change) := by
  induction values with
  | nil => exact ok []
  | cons first rest ih =>
    intro results succeeds
    obtain ⟨head, tail, first_eq, rest_eq, rfl⟩ := exists_of_mapM_cons succeeds
    rw [each first List.mem_cons_self head first_eq,
      ih (fun x member => each x (List.mem_cons_of_mem _ member)) tail rest_eq]
    rfl

end Only

/-- A sum of offsets is given when it is an offset. -/
theorem gives_add (left right : Nat) :
    Gives (add left right) (left + right ≤ limit) (left + right) :=
  ⟨fun fits => add_eq_ok fits, fun misses => if_neg misses⟩

end SfcIndex.Offset
