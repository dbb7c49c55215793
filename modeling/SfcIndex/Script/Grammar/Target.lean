import SfcIndex.Script.Grammar.Rule

/-! # What can be assigned to

An expression before `=` turns out to be a pattern. Whether it can be one is decided on the
expression that was read.
-/

namespace SfcIndex.Script

/-- What becomes of an expression that is assigned to. -/
structure Target where
  /-- The starts of object members whose value after `=` is a default. -/
  defaults : List Nat
  /-- The starts of literals whose last part takes what is left, after which no comma may come. -/
  closedByRest : List Nat

namespace Target

/-- A target without parts. -/
def simple : Target := ⟨[], []⟩

def append (first second : Target) : Target :=
  ⟨first.defaults ++ second.defaults, first.closedByRest ++ second.closedByRest⟩

end Target

namespace Expr

/-- Whether an expression is a name or a property access. -/
def isReference : Expr → Bool
  | .identifier _ => true
  | .other .member _ => true
  | _ => false

/-- Whether an expression denotes a place that holds one value. -/
def isSimpleTarget : Expr → Bool
  | .wrapped .parentheses inner _ => inner.isSimpleTarget
  | .wrapped _ inner _ => inner.unwrap.isReference
  | expr => expr.isReference

mutual

/-- The target that an expression is, if it can be assigned to. -/
def target? : Expr → Option Target
  | .array elements span => elementTargets? span.start elements
  | .object members span => memberTargets? span.start members
  | expr => if expr.isSimpleTarget then some .simple else none

/-- A target with an optional default, which reads as an assignment. -/
def targetWithDefault? : Expr → Option Target
  | .other .assignment _ => some .simple
  | .array elements span => elementTargets? span.start elements
  | .object members span => memberTargets? span.start members
  | expr => if expr.isSimpleTarget then some .simple else none

/-- The targets that the elements of an array literal are. -/
def elementTargets? (start : Nat) : List Element → Option Target
  | [] => some .simple
  | .hole :: rest => elementTargets? start rest
  | [.spread argument _] => (target? argument).map fun target =>
    target.append ⟨[], [start]⟩
  | .spread _ _ :: _ => none
  | .value value :: rest => do
    let first ← targetWithDefault? value
    let second ← elementTargets? start rest
    return first.append second

/-- The targets that the members of an object literal are. -/
def memberTargets? (start : Nat) : List Member → Option Target
  | [] => some .simple
  | [.spread argument _] => (target? argument).map fun target =>
    target.append ⟨[], [start]⟩
  | .spread _ _ :: _ => none
  | .property _ value span :: rest => do
    let first ← targetWithDefault? value
    let second ← memberTargets? start rest
    return (Target.mk [span.start] []).append (first.append second)

end

end Expr

namespace Grammar

open SfcIndex.Script.Parser

/-- Takes an expression as a target. -/
def assignTo (expr : Expr) : Parser Unit := do
  match expr.target? with
  | none => unexpected
  | some target =>
    let state ← get
    set { state with
      pendingDefaults := state.pendingDefaults.filter fun start => !target.defaults.contains start }
    if target.closedByRest.any state.trailingCommas.contains then record

/-- Takes an expression as a place that holds one value. -/
def updateOf (expr : Expr) : Parser Unit := do unless expr.isSimpleTarget do unexpected

end Grammar

end SfcIndex.Script
