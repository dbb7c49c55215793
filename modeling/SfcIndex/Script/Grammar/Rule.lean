import SfcIndex.Script.Outline
import SfcIndex.Script.Parser

/-! # The rules of the grammar

The rules of the grammar refer to one another. Each is written over a `Grammar` that stands for the
rules it refers to; `Grammar.ofDepth` in `Script.Read` closes the circle, one level of nesting at a
time.
-/

namespace SfcIndex.Script

/-- The rules through which the grammar refers back to itself. -/
inductive Rule where
  /-- A statement; one that stands alone, as after `if`, is `single`. -/
  | statement (single : Bool)
  /-- An expression without commas. In the middle of a conditional expression `arrowTypes` is off:
  there a `:` after parameters need not start a return type. -/
  | assignment (arrowTypes : Bool)
  /-- Operands and operators that bind more strongly than `floor`. -/
  | binary (floor : Nat)
  | unary
  /-- An expression of calls and property accesses. -/
  | callee
  | primary
  | pattern
  | type
  /-- An element from its `<` on; inside another element, text follows it. -/
  | element (nested : Bool)

namespace Rule

/-- What a rule reads. -/
abbrev Tree : Rule → Type
  | statement _ => Statement
  | pattern => Pattern
  | type => TypeOutline
  | _ => Expr

end Rule

/-- A parser for every rule. -/
def Grammar := (rule : Rule) → Parser rule.Tree

namespace Grammar

def statement (g : Grammar) : Parser Statement := g (.statement false)

def singleStatement (g : Grammar) : Parser Statement := g (.statement true)

def assignment (g : Grammar) : Parser Expr := g (.assignment true)

def pattern (g : Grammar) : Parser Pattern := g .pattern

def type (g : Grammar) : Parser TypeOutline := g .type

def callee (g : Grammar) : Parser Expr := g .callee

open SfcIndex.Script.Parser

/-- An expression, possibly several with commas between them. -/
def expression (g : Grammar) : Parser Expr := do
  let start ← startOffset
  within (fun context => { context with decorates := false }) do
    let first ← g.assignment
    unless ← isAt .comma do return first
    loop (fun () => do
      unless ← eat .comma do return .done (.other .plain (← spanFrom start))
      let _ ← g.assignment
      return .more ()) ()

/-- An expression in parentheses that belong to a statement. -/
def parenthesized (g : Grammar) : Parser Expr := do
  expect .lparen
  let value ← allowingIn g.expression
  expect .rparen
  return value

end Grammar

end SfcIndex.Script
