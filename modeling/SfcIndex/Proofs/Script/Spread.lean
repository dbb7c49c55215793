import Mathlib.Logic.ExistsUnique
import Mathlib.Logic.Relation
import SfcIndex.Proofs.Script.SameNames

/-! # Spreads and the members they stand for

A spread of an object literal, or of a call on one, stands for the members of that literal. Put in
place of their spreads, in any order and at any depth (`Inlines`), they leave one flat list of
members, and the names are the same all the way (`memberBindings_inlining`).
-/

namespace SfcIndex.Script

/-- A call whose first argument is an array literal. -/
def Expr.callsOnArray (expr : Expr) : Bool :=
  match expr.unwrap with
  | .call _ _ (.value first :: _) _ =>
    match first.unwrap with
    | .array _ _ => true
    | _ => false
  | _ => false

/-- The first expression is an object literal inside wrappers, and the second one has other members
there. -/
inductive Expr.SwapsObject (members members' : List Member) : Expr → Expr → Prop where
  | object (span : Span) :
      SwapsObject members members' (.object members span) (.object members' span)
  | wrapped {inner inner' : Expr} (wrapper : Wrapper) (span : Span)
      (swaps : SwapsObject members members' inner inner') :
      SwapsObject members members' (.wrapped wrapper inner span) (.wrapped wrapper inner' span)

/-- The same, or with the object literal as the first argument of a call. -/
inductive Expr.SwapsSpread (members members' : List Member) : Expr → Expr → Prop where
  | object (span : Span) :
      SwapsSpread members members' (.object members span) (.object members' span)
  | call {first first' : Expr} (callee : Expr) (types : List TypeOutline) (later : List Element)
      (span : Span) (swaps : first.SwapsObject members members' first') :
      SwapsSpread members members' (.call callee types (.value first :: later) span)
        (.call callee types (.value first' :: later) span)
  | wrapped {inner inner' : Expr} (wrapper : Wrapper) (span : Span)
      (swaps : SwapsSpread members members' inner inner') :
      SwapsSpread members members' (.wrapped wrapper inner span) (.wrapped wrapper inner' span)

/-- One step of inlining. A spread is replaced by the members it stands for, or dropped if it stands
for none and is not that of a call on an array literal; or the step is one among the members that a
spread stands for. -/
inductive Inlines : List Member → List Member → Prop where
  | replace {argument : Expr} {members : List Member} (span : Span) (rest : List Member)
      (stands : argument.descriptor? = some members) :
      Inlines (.spread argument span :: rest) (members ++ rest)
  | drop {argument : Expr} (span : Span) (rest : List Member)
      (nothing : argument.descriptor? = none) (noArray : argument.callsOnArray = false) :
      Inlines (.spread argument span :: rest) rest
  | inside {argument argument' : Expr} {members members' : List Member} (span : Span)
      (rest : List Member) (step : Inlines members members')
      (swaps : argument.SwapsSpread members members' argument') :
      Inlines (.spread argument span :: rest) (.spread argument' span :: rest)
  | later {rest rest' : List Member} (member : Member) (step : Inlines rest rest') :
      Inlines (member :: rest) (member :: rest')

/-- The only spreads are those of calls on array literals. -/
def Flat (members : List Member) : Prop :=
  ∀ argument span, .spread argument span ∈ members → argument.callsOnArray = true

namespace Expr

variable {expr expr' : Expr} {members members' : List Member}

/-- An object that is swapped has the members before and after. -/
theorem SwapsObject.members?_eq (swaps : expr.SwapsObject members members' expr') :
    expr.members? = some members ∧ expr'.members? = some members' := by
  induction swaps with
  | object span => exact ⟨rfl, rfl⟩
  | wrapped wrapper span swaps ih => exact ih

/-- A spread object that is swapped has the members before and after. -/
theorem SwapsSpread.descriptor?_eq (swaps : expr.SwapsSpread members members' expr') :
    expr.descriptor? = some members ∧ expr'.descriptor? = some members' := by
  induction swaps with
  | object span => exact ⟨rfl, rfl⟩
  | call callee types later span swaps => exact swaps.members?_eq
  | wrapped wrapper span swaps ih => exact ih

/-- Object literals are what has members. -/
theorem eq_object_of_members? (found : expr.members? = some members) :
    ∃ span, expr.unwrap = .object members span := by
  unfold members? at found
  split at found
  next members span unwrapped =>
    cases found
    exact ⟨span, unwrapped⟩
  next => cases found

/-- A spread stands for the members of an object literal or of the first argument of a call. -/
theorem cases_of_descriptor? (stands : expr.descriptor? = some members) :
    (∃ span, expr.unwrap = .object members span) ∨
      ∃ callee types first later span,
        expr.unwrap = .call callee types (.value first :: later) span ∧
          first.members? = some members := by
  unfold descriptor? at stands
  split at stands
  next members span unwrapped =>
    cases stands
    exact .inl ⟨span, unwrapped⟩
  next callee types first later span unwrapped =>
    exact .inr ⟨callee, types, first, later, span, unwrapped, stands⟩
  next => cases stands

/-- An object is no call on an array. -/
theorem callsOnArray_of_descriptor? (stands : expr.descriptor? = some members) :
    expr.callsOnArray = false := by
  unfold callsOnArray
  obtain ⟨span, object⟩ | ⟨callee, types, first, later, span, call, found⟩ :=
    cases_of_descriptor? stands
  · rw [object]
  · obtain ⟨extent, object⟩ := eq_object_of_members? found
    simp only [call, object]

/-- The names of a group that is an object are those of its members. -/
theorem groupBindings_of_descriptor? (category : Category)
    (stands : expr.descriptor? = some members) :
    expr.groupBindings category = memberBindings category members := by
  rw [groupBindings_unwrap]
  obtain ⟨span, object⟩ | ⟨callee, types, first, later, span, call, found⟩ :=
    cases_of_descriptor? stands
  · rw [object, groupBindings]
  · obtain ⟨extent, object⟩ := eq_object_of_members? found
    rw [call, groupBindings, argumentBindings, literalBindings_unwrap, object, literalBindings]

/-- What has no members and is no array literal names nothing as a first argument. -/
theorem literalBindings_of_none (category : Category) (expr : Expr)
    (nothing : expr.members? = none)
    (noArray : ∀ elements span, expr.unwrap ≠ .array elements span) :
    expr.literalBindings category = [] := by
  cases expr with
  | array elements span => exact absurd rfl (noArray elements span)
  | object members span => cases nothing
  | wrapped wrapper inner span =>
    rw [literalBindings]
    exact literalBindings_of_none category inner nothing noArray
  | _ => rfl

/-- What stands for no members, and is no call on an array literal, names nothing. -/
theorem groupBindings_of_none (category : Category) (expr : Expr)
    (nothing : expr.descriptor? = none) (noArray : expr.callsOnArray = false) :
    expr.groupBindings category = [] := by
  cases expr with
  | object members span => cases nothing
  | wrapped wrapper inner span =>
    rw [groupBindings]
    exact groupBindings_of_none category inner nothing noArray
  | call callee types arguments span =>
    rw [groupBindings]
    match arguments with
    | .value first :: later =>
      rw [argumentBindings]
      apply literalBindings_of_none category first nothing
      intro elements extent array
      simp only [callsOnArray, unwrap, array] at noArray
      cases noArray
    | [] => rfl
    | .spread _ _ :: _ => rfl
    | .hole :: _ => rfl
  | _ => rfl

/-- What is inside a wrapper is not larger. -/
theorem sizeOf_unwrap_le (expr : Expr) : sizeOf expr.unwrap ≤ sizeOf expr := by
  refine expr.unwrap_induction (motive := fun outer => sizeOf expr.unwrap ≤ sizeOf outer)
    (Nat.le_refl _) ?_
  intro wrapper inner span bound
  simp only [wrapped.sizeOf_spec]
  omega

/-- The members of an object are smaller than it. -/
theorem sizeOf_lt_of_members? (found : expr.members? = some members) :
    sizeOf members < sizeOf expr := by
  obtain ⟨span, literal⟩ := eq_object_of_members? found
  have bound := expr.sizeOf_unwrap_le
  rw [literal, object.sizeOf_spec] at bound
  omega

/-- The members of a described object are smaller than it. -/
theorem sizeOf_lt_of_descriptor? (stands : expr.descriptor? = some members) :
    sizeOf members < sizeOf expr := by
  have bound := expr.sizeOf_unwrap_le
  obtain ⟨span, literal⟩ | ⟨callee, types, first, later, span, called, found⟩ :=
    cases_of_descriptor? stands
  · rw [literal, object.sizeOf_spec] at bound
    omega
  · have smaller := sizeOf_lt_of_members? found
    rw [called] at bound
    simp only [call.sizeOf_spec, List.cons.sizeOf_spec, Element.value.sizeOf_spec] at bound
    omega

/-- An object with smaller members is smaller. -/
theorem SwapsObject.sizeOf_lt (swaps : expr.SwapsObject members members' expr')
    (smaller : sizeOf members' < sizeOf members) : sizeOf expr' < sizeOf expr := by
  induction swaps with
  | object span =>
    simp only [object.sizeOf_spec]
    omega
  | wrapped wrapper span swaps ih =>
    simp only [wrapped.sizeOf_spec]
    omega

/-- A spread object with smaller members is smaller. -/
theorem SwapsSpread.sizeOf_lt (swaps : expr.SwapsSpread members members' expr')
    (smaller : sizeOf members' < sizeOf members) : sizeOf expr' < sizeOf expr := by
  induction swaps with
  | object span =>
    simp only [object.sizeOf_spec]
    omega
  | call callee types later span swaps =>
    have less := swaps.sizeOf_lt smaller
    simp only [call.sizeOf_spec, List.cons.sizeOf_spec, Element.value.sizeOf_spec]
    omega
  | wrapped wrapper span swaps ih =>
    simp only [wrapped.sizeOf_spec]
    omega

end Expr

theorem sizeOf_append (members rest : List Member) :
    sizeOf (members ++ rest) + 1 = sizeOf members + sizeOf rest := by
  induction members with
  | nil => simp only [List.nil_append, List.nil.sizeOf_spec, Nat.add_comm]
  | cons member members ih =>
    simp only [List.cons_append, List.cons.sizeOf_spec]
    omega

/-- A step leaves less to inline. -/
theorem Inlines.sizeOf_lt {before after : List Member} (step : Inlines before after) :
    sizeOf after < sizeOf before := by
  induction step with
  | @replace argument members span rest stands =>
    have smaller := Expr.sizeOf_lt_of_descriptor? stands
    have sum := sizeOf_append members rest
    simp only [List.cons.sizeOf_spec, Member.spread.sizeOf_spec]
    omega
  | drop span rest nothing noArray =>
    simp only [List.cons.sizeOf_spec]
    omega
  | inside span rest step swaps ih =>
    have smaller := swaps.sizeOf_lt ih
    simp only [List.cons.sizeOf_spec, Member.spread.sizeOf_spec]
    omega
  | later member step ih =>
    simp only [List.cons.sizeOf_spec]
    omega

/-- However it is done, inlining comes to an end. -/
theorem Inlines.acc (members : List Member) :
    Acc (fun after before => Inlines before after) members :=
  Subrelation.accessible (fun step => step.sizeOf_lt)
    ((measure (sizeOf : List Member → Nat)).wf.apply members)

/-- Where a spread is left that is not that of a call on an array literal, there is a step. -/
theorem exists_inlines {members : List Member} (notFlat : ¬ Flat members) :
    ∃ next, Inlines members next := by
  induction members with
  | nil => exact absurd (fun _ _ member => absurd member List.not_mem_nil) notFlat
  | cons member rest ih =>
    by_cases flat : Flat rest
    · cases member with
      | property key value span =>
        refine absurd (fun argument extent among => ?_) notFlat
        cases among with
        | tail _ among => exact flat argument extent among
      | spread argument span =>
        cases stands : argument.descriptor? with
        | some members => exact ⟨_, .replace span rest stands⟩
        | none =>
          refine ⟨_, .drop span rest stands ?_⟩
          rw [← Bool.not_eq_true]
          intro array
          refine notFlat fun other extent among => ?_
          cases among with
          | head => exact array
          | tail _ among => exact flat other extent among
    · obtain ⟨next, step⟩ := ih flat
      exact ⟨_, .later member step⟩

/-- Members in which something is inlined are not flat. -/
theorem Inlines.not_flat {before after : List Member} (step : Inlines before after) :
    ¬ Flat before := by
  intro flat
  induction step with
  | replace span rest stands =>
    have array := flat _ span (.head _)
    rw [Expr.callsOnArray_of_descriptor? stands] at array
    cases array
  | drop span rest nothing noArray =>
    have array := flat _ span (.head _)
    rw [noArray] at array
    cases array
  | inside span rest step swaps ih =>
    have array := flat _ span (.head _)
    rw [Expr.callsOnArray_of_descriptor? swaps.descriptor?_eq.1] at array
    cases array
  | later member step ih => exact ih fun argument span among => flat argument span (.tail _ among)

/-- The members that are left in the end are those that are flat. -/
theorem flat_iff_forall_not_inlines {members : List Member} :
    Flat members ↔ ∀ next, ¬ Inlines members next := by
  constructor
  · intro flat next step
    exact step.not_flat flat
  · intro ended
    by_cases flat : Flat members
    · exact flat
    · obtain ⟨next, step⟩ := exists_inlines flat
      exact absurd step (ended next)

/-- The members without the spreads that stand for members or for nothing. -/
def inlined : List Member → List Member
  | [] => []
  | .property key value span :: rest => .property key value span :: inlined rest
  | .spread argument span :: rest =>
    (match _stands : argument.descriptor? with
      | some members => inlined members
      | none => if argument.callsOnArray then [.spread argument span] else []) ++ inlined rest
  termination_by members => sizeOf members
  decreasing_by
    · simp only [List.cons.sizeOf_spec]
      omega
    · have smaller := Expr.sizeOf_lt_of_descriptor? _stands
      simp only [List.cons.sizeOf_spec, Member.spread.sizeOf_spec]
      omega
    · simp only [List.cons.sizeOf_spec]
      omega

section Inlined

variable {argument : Expr} {members : List Member} (span : Span) (rest : List Member)

/-- A spread object gives way to its own members. -/
theorem inlined_of_descriptor? (stands : argument.descriptor? = some members) :
    inlined (.spread argument span :: rest) = inlined members ++ inlined rest := by
  rw [inlined]
  split
  next found same =>
    rw [stands] at same
    cases same
    rfl
  next same =>
    rw [stands] at same
    cases same

/-- Any other spread value is left out unless it is a call on an array. -/
theorem inlined_of_none (nothing : argument.descriptor? = none) :
    inlined (.spread argument span :: rest) =
      (if argument.callsOnArray then [.spread argument span] else []) ++ inlined rest := by
  rw [inlined]
  split
  next found same =>
    rw [nothing] at same
    cases same
  next => rfl

end Inlined

/-- Members in a row are inlined one after the other. -/
theorem inlined_append (members rest : List Member) :
    inlined (members ++ rest) = inlined members ++ inlined rest := by
  induction members with
  | nil => rw [List.nil_append, inlined, List.nil_append]
  | cons member members ih =>
    cases member with
    | property key value span => simp only [List.cons_append, inlined, ih]
    | spread argument span =>
      rw [List.cons_append]
      cases stands : argument.descriptor? with
      | some inner => simp only [inlined_of_descriptor? _ _ stands, ih, List.append_assoc]
      | none => simp only [inlined_of_none _ _ stands, ih, List.append_assoc]

/-- A flat list has nothing left to inline. -/
theorem inlined_of_flat {members : List Member} (flat : Flat members) :
    inlined members = members := by
  induction members with
  | nil => rw [inlined]
  | cons member rest ih =>
    have same := ih fun argument span among => flat argument span (.tail _ among)
    cases member with
    | property key value span => rw [inlined, same]
    | spread argument span =>
      have array := flat argument span (.head _)
      cases stands : argument.descriptor? with
      | some members =>
        rw [Expr.callsOnArray_of_descriptor? stands] at array
        cases array
      | none => rw [inlined_of_none _ _ stands, if_pos array, same, List.singleton_append]

/-- A step does not change what is left in the end. -/
theorem Inlines.inlined_eq {before after : List Member} (step : Inlines before after) :
    inlined after = inlined before := by
  induction step with
  | replace span rest stands => rw [inlined_of_descriptor? _ _ stands, inlined_append]
  | drop span rest nothing noArray =>
    simp only [inlined_of_none _ _ nothing, noArray, Bool.false_eq_true, ↓reduceIte,
      List.nil_append]
  | inside span rest step swaps ih =>
    obtain ⟨left, right⟩ := swaps.descriptor?_eq
    rw [inlined_of_descriptor? _ _ left, inlined_of_descriptor? _ _ right, ih]
  | later member step ih =>
    cases member with
    | property key value span => rw [inlined, inlined, ih]
    | spread argument span =>
      cases stands : argument.descriptor? with
      | some members =>
        rw [inlined_of_descriptor? _ _ stands, inlined_of_descriptor? _ _ stands, ih]
      | none => rw [inlined_of_none _ _ stands, inlined_of_none _ _ stands, ih]

/-- A step does not change the names. -/
theorem Inlines.memberBindings_eq {before after : List Member} (step : Inlines before after)
    (category : Category) : memberBindings category after = memberBindings category before := by
  induction step with
  | replace span rest stands =>
    rw [memberBindings_append, memberBindings, Expr.groupBindings_of_descriptor? category stands]
  | drop span rest nothing noArray =>
    rw [memberBindings, Expr.groupBindings_of_none category _ nothing noArray, List.nil_append]
  | inside span rest step swaps ih =>
    obtain ⟨left, right⟩ := swaps.descriptor?_eq
    simp only [memberBindings, Expr.groupBindings_of_descriptor? category left,
      Expr.groupBindings_of_descriptor? category right, ih]
  | later member step ih =>
    cases member with
    | property key value span => simp only [memberBindings, ih]
    | spread argument span => simp only [memberBindings, ih]

/-- Inlining comes to an end. -/
theorem exists_flat (members : List Member) :
    ∃ flat, Relation.ReflTransGen Inlines members flat ∧ Flat flat := by
  induction Inlines.acc members with
  | intro members _ ih =>
    by_cases flat : Flat members
    · exact ⟨members, .refl, flat⟩
    · obtain ⟨next, step⟩ := exists_inlines flat
      obtain ⟨last, steps, flat⟩ := ih next step
      exact ⟨last, .head step steps, flat⟩

/-- Wherever inlining ends, it ends with the same members. -/
theorem eq_inlined_of_flat {members flat : List Member}
    (steps : Relation.ReflTransGen Inlines members flat) (isFlat : Flat flat) :
    flat = inlined members := by
  have kept : inlined flat = inlined members := by
    clear isFlat
    induction steps with
    | refl => rfl
    | tail _ step ih => rw [step.inlined_eq, ih]
  rw [← kept, inlined_of_flat isFlat]

/-- Inlining the spreads of an object literal comes to an end whatever the order, always with the
same members, of which only calls on array literals are spread, and no step changes the names. -/
theorem memberBindings_inlining (members : List Member) :
    Acc (fun after before => Inlines before after) members ∧
      (∃! flat, Relation.ReflTransGen Inlines members flat ∧ Flat flat) ∧
      ∀ later, Relation.ReflTransGen Inlines members later →
        (Flat later ↔ ∀ next, ¬ Inlines later next) ∧
          ∀ category, memberBindings category later = memberBindings category members := by
  refine ⟨Inlines.acc members, ?_, fun later steps => ⟨flat_iff_forall_not_inlines, ?_⟩⟩
  · obtain ⟨flat, steps, isFlat⟩ := exists_flat members
    refine ⟨flat, ⟨steps, isFlat⟩, fun other reached => ?_⟩
    rw [eq_inlined_of_flat steps isFlat, eq_inlined_of_flat reached.1 reached.2]
  · intro category
    induction steps with
    | refl => rfl
    | tail _ step ih => rw [step.memberBindings_eq, ih]

end SfcIndex.Script
