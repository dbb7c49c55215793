import Mathlib.Logic.Relation
import SfcIndex.Proofs.Script.SameNames

/-! # Wrappers around the parts of a script

Parentheses and the marks of types around an expression (`Expr.Wraps`) do not change what a script
names, wherever they are put, but around what is called and around an element of an array literal
(`outlineBindings_of_wraps`).
-/

namespace SfcIndex.Script

/-- One wrapper is put around an expression or a part of it. What encloses the wrapper may become
longer. -/
inductive Expr.Wraps : Expr → Expr → Prop where
  | around (wrapper : Wrapper) (expr : Expr) (span : Span) :
      Wraps expr (.wrapped wrapper expr span)
  | inside {inner inner' : Expr} (wrapper : Wrapper) (span span' : Span)
      (wraps : Wraps inner inner') :
      Wraps (.wrapped wrapper inner span) (.wrapped wrapper inner' span')
  | value {value value' : Expr} (before after : List Member) (key : Key)
      (span span' extent extent' : Span) (wraps : Wraps value value') :
      Wraps (.object (before ++ .property key value span :: after) extent)
        (.object (before ++ .property key value' span' :: after) extent')
  | spread {argument argument' : Expr} (before after : List Member)
      (span span' extent extent' : Span) (wraps : Wraps argument argument') :
      Wraps (.object (before ++ .spread argument span :: after) extent)
        (.object (before ++ .spread argument' span' :: after) extent')
  | argument {value value' : Expr} (callee : Expr) (types : List TypeOutline)
      (before after : List Element) (span span' : Span) (wraps : Wraps value value') :
      Wraps (.call callee types (before ++ .value value :: after) span)
        (.call callee types (before ++ .value value' :: after) span')
  | returned {value value' : Expr} (arrow : Bool) (before after : List Statement)
      (span span' extent extent' : Span) (wraps : Wraps value value') :
      Wraps (.ofBody arrow (before ++ .returns (some value) span :: after) extent)
        (.ofBody arrow (before ++ .returns (some value') span' :: after) extent')
  | concise {value value' : Expr} (span span' : Span) (wraps : Wraps value value') :
      Wraps (.arrow (.expression value) span) (.arrow (.expression value') span')

/-- One wrapper is put around a part of what a script exports by default, of a statement or of an
initial value. -/
inductive Wraps : List Statement → List Statement → Prop where
  | exported {value value' : Expr} (before after : List Statement) (span span' : Span)
      (wraps : value.Wraps value') :
      Wraps (before ++ .exportDefault (.expression value) span :: after)
        (before ++ .exportDefault (.expression value') span' :: after)
  | statement {value value' : Expr} (before after : List Statement) (span span' : Span)
      (wraps : value.Wraps value') :
      Wraps (before ++ .expression value span :: after)
        (before ++ .expression value' span' :: after)
  | initial {value value' : Expr} (before after : List Statement)
      (earlier later : List Declarator) (pattern : Pattern) (span span' extent extent' : Span)
      (wraps : value.Wraps value') :
      Wraps (before ++ .variables (earlier ++ .declare pattern (some value) span :: later) extent ::
          after)
        (before ++ .variables (earlier ++ .declare pattern (some value') span' :: later) extent' ::
          after)

namespace Expr.Wraps

variable {expr expr' : Expr}

/-- A wrapped expression has the same names. -/
theorem sameNames (wraps : expr.Wraps expr') : expr.SameNames expr' := by
  induction wraps with
  | around wrapper expr span => exact (SameNames.unwrapped wrapper expr span).symm
  | inside wrapper span span' wraps ih => exact ih.wrapped wrapper span span'
  | value before after key span span' extent extent' wraps ih =>
    exact .ofMembers (fun category => memberBindings_property ..) extent extent'
  | spread before after span span' extent extent' wraps ih =>
    exact .ofMembers (fun category => memberBindings_spread category ih ..) extent extent'
  | argument callee types before after span span' wraps ih =>
    exact .ofArguments (fun category => argumentBindings_value category ih ..) ..
  | returned arrow before after span span' extent extent' wraps ih =>
    exact .ofReturned (fun category => returnedNames_value category ih before after span span')
      arrow extent extent'
  | concise span span' wraps ih => exact ih.concise span span'

/-- A wrapped expression has the same options. -/
theorem sameOptions (wraps : expr.Wraps expr') : expr.SameOptions expr' := by
  induction wraps with
  | around wrapper expr span => exact ⟨rfl, rfl⟩
  | inside wrapper span span' wraps ih => exact ih.wrapped wrapper span span'
  | value before after key span span' extent extent' wraps ih =>
    exact .ofMembers (optionBindings_value key
      (fun word _ => wraps.sameNames.optionBindings_eq word.name) before after span span') ..
  | spread before after span span' extent extent' wraps ih =>
    exact .ofMembers (optionBindings_spread before after _ _ span span') extent extent'
  | argument callee types before after span span' wraps ih =>
    cases before with
    | nil => exact .first ih ..
    | cons first before =>
      -- behind the first argument nothing describes the component
      cases first with
      | value value => exact ⟨rfl, rfl⟩
      | spread argument extent => exact ⟨rfl, rfl⟩
      | hole => exact ⟨rfl, rfl⟩
  | returned arrow before after span span' extent extent' wraps ih =>
    cases arrow with
    | false => exact ⟨rfl, rfl⟩
    | true => exact ⟨rfl, rfl⟩
  | concise span span' wraps ih => exact ⟨rfl, rfl⟩

/-- A wrapped expression defines the same properties. -/
theorem definedProps_eq (wraps : expr.Wraps expr') : expr.definedProps = expr'.definedProps := by
  induction wraps with
  | around wrapper expr span => rw [definedProps]
  | inside wrapper span span' wraps ih => rw [definedProps, definedProps, ih]
  | @argument value value' callee types before after span span' wraps ih =>
    have first : firstDefinedProps (before ++ .value value :: after) =
        firstDefinedProps (before ++ .value value' :: after) := by
      cases before with
      | nil => rw [List.nil_append, List.nil_append, firstDefinedProps, firstDefinedProps, ih]
      | cons first before =>
        cases first with
        | value value => simp only [List.cons_append, firstDefinedProps]
        | spread argument extent => rfl
        | hole => rfl
    cases callee with
    | identifier callee =>
      rw [definedProps, definedProps, first, argumentBindings_value .prop wraps.sameNames]
    | _ => rfl
  | returned arrow before after span span' extent extent' wraps ih =>
    cases arrow with
    | false => rfl
    | true => rfl
  | _ => rfl

end Expr.Wraps

namespace Wraps

variable {before after : List Statement}

/-- A script with wrapped expressions has the same names. -/
theorem outlineBindings_eq (wraps : Wraps before after) (setup : Bool) :
    outlineBindings setup before = outlineBindings setup after := by
  cases wraps with
  | exported earlier later span span' wraps =>
    cases setup with
    | false =>
      refine outlineBindings_exported ?_ earlier later
      exact congrArg some wraps.sameOptions.component
    | true =>
      refine outlineBindings_setup ?_ earlier later
      rfl
  | statement earlier later span span' wraps =>
    cases setup with
    | false =>
      refine outlineBindings_exported ?_ earlier later
      rfl
    | true =>
      refine outlineBindings_setup ?_ earlier later
      exact wraps.definedProps_eq
  | initial earlier later former latter pattern span span' extent extent' wraps =>
    cases setup with
    | false =>
      refine outlineBindings_exported ?_ earlier later
      rfl
    | true =>
      refine outlineBindings_setup ?_ earlier later
      refine setupBindings_declarator ?_ former latter extent extent'
      exact congrArg (pattern.bindings .setup ++ ·) wraps.definedProps_eq

/-- A script with wrapped expressions is a class when it was one. -/
theorem outlineIsClass_eq (wraps : Wraps before after) (setup : Bool) :
    outlineIsClass setup before = outlineIsClass setup after := by
  have exported : (defaultExport? before).map DefaultExport.isClass =
      (defaultExport? after).map DefaultExport.isClass := by
    cases wraps with
    | exported earlier later =>
      refine defaultExport?_place ?_ earlier later
      rfl
    | statement earlier later =>
      refine defaultExport?_place ?_ earlier later
      rfl
    | initial earlier later =>
      refine defaultExport?_place ?_ earlier later
      rfl
  have flag (statements : List Statement) : outlineIsClass setup statements =
      (!setup && ((defaultExport? statements).map DefaultExport.isClass).getD false) := by
    unfold outlineIsClass
    cases defaultExport? statements <;> rfl
  rw [flag, flag, exported]

end Wraps

/-- Wrappers, as many as there may be and wherever they are put, change neither the names of a
script nor whether its component is a class. -/
theorem outlineBindings_of_wraps {before after : List Statement}
    (wraps : Relation.ReflTransGen Wraps before after) (setup : Bool) :
    outlineBindings setup after = outlineBindings setup before ∧
      outlineIsClass setup after = outlineIsClass setup before := by
  induction wraps with
  | refl => exact ⟨rfl, rfl⟩
  | tail _ step ih =>
    exact ⟨(step.outlineBindings_eq setup).symm.trans ih.1,
      (step.outlineIsClass_eq setup).symm.trans ih.2⟩

/-- A component in parentheses, with a cast around its properties. -/
theorem outlineBindings_of_wraps_twice :
    outlineBindings false
        [.exportDefault (.expression (.wrapped .parentheses (.object [.property
          (.identifier ⟨"props", ⟨18, 23⟩⟩)
          (.wrapped .asType (.array [.value (.text "size" ⟨26, 32⟩)] ⟨25, 33⟩) ⟨25, 42⟩)
          ⟨18, 42⟩] ⟨16, 44⟩) ⟨15, 45⟩)) ⟨0, 45⟩] =
      outlineBindings false
        [.exportDefault (.expression (.object [.property
          (.identifier ⟨"props", ⟨18, 23⟩⟩) (.array [.value (.text "size" ⟨26, 32⟩)] ⟨25, 33⟩)
          ⟨18, 33⟩] ⟨16, 35⟩)) ⟨0, 35⟩] ∧
    outlineBindings false
        [.exportDefault (.expression (.object [.property
          (.identifier ⟨"props", ⟨18, 23⟩⟩) (.array [.value (.text "size" ⟨26, 32⟩)] ⟨25, 33⟩)
          ⟨18, 33⟩] ⟨16, 35⟩)) ⟨0, 35⟩] =
      [⟨"size", .prop, 32, none⟩] := by
  refine ⟨(outlineBindings_of_wraps ?_ false).1, rfl⟩
  refine .head (.exported [] [] _ ⟨0, 44⟩ (.value [] [] _ _ ⟨18, 42⟩ _ ⟨16, 44⟩
    (.around .asType _ ⟨25, 42⟩))) ?_
  exact .single (.exported [] [] _ _ (.around .parentheses _ _))

end SfcIndex.Script
