import SfcIndex.Script.Grammar.Pattern

/-! # Variables -/

namespace SfcIndex.Script.Grammar

open SfcIndex.Script.Parser

/-- The words that declare variables. -/
inductive VariableKind where
  /-- `var` -/
  | hoisted
  /-- `let` -/
  | scoped
  /-- `const` -/
  | constant
  /-- `using`, also after `await` -/
  | disposable
  deriving Repr, DecidableEq

/-- A declared pattern with its type and its value; only a statement may promise a value later on
with `!`. -/
def declarator (g : Grammar) (inStatement : Bool) : Parser Declarator := do
  let start ← startOffset
  let pattern ← g.pattern
  if inStatement && !(← onNewLine) then
    let _ ← eatTyped .bang
  if ← eatTyped .question then record
  typeAnnotation g
  if ← eat .assign then
    let value ← g.assignment
    return .declare pattern (some value) (← spanFrom start)
  return .declare pattern none (← spanFrom start)

/-- Declared patterns with commas between them. -/
def declarators (g : Grammar) (inStatement : Bool) : Parser (List Declarator) := do
  let first ← declarator g inStatement
  let rest ← loop (fun found => do
    unless ← isAt .comma do return .done found
    advance
    return .more ((← declarator g inStatement) :: found)) []
  return first :: rest.reverse

/-- Whether a declaration has the value that its kind asks for. -/
def Declarator.isComplete (keyword : VariableKind) : Declarator → Bool
  | .declare pattern initial _ =>
    match pattern with
    | .identifier _ => initial.isSome || keyword = .hoisted || keyword = .scoped
    | _ => initial.isSome && keyword != .disposable

/-- Records declarations without the value they need. -/
def checkComplete (keyword : VariableKind) (found : List Declarator) : Parser Unit := do
  unless (← context).ambient || found.all (Declarator.isComplete keyword) do record

/-- The word that declares variables, if one stands here. -/
def variableKind? : Parser (Option (VariableKind × Nat)) := do
  let next ← nextToken
  let declares (following : Token) : Bool := following.kind.isBindingIdentifier && !following.onNewLine
  match ← kind with
  | .word "var" => return some (.hoisted, 1)
  | .word "const" => return some (.constant, 1)
  | .word "let" => return some (.scoped, 1)
  | .word "using" => return if declares next then some (.disposable, 1) else none
  | .word "await" =>
    let found ← looksLike do
      advance
      return (← isAtWord "using") && !(← onNewLine) && declares (← nextToken)
    return if found then some (.disposable, 2) else none
  | _ => return none

/-- A statement that declares variables, after its keyword. -/
def variablesRest (g : Grammar) (start : Nat) (keyword : VariableKind) : Parser Statement := do
  let found ← declarators g true
  checkComplete keyword found
  endStatement
  return .variables found (← spanFrom start)

end SfcIndex.Script.Grammar
