import SfcIndex.Script.Grammar.Type

/-! # Functions -/

namespace SfcIndex.Script

/-- The surroundings inside a function. -/
def Context.inFunction (isAsync isGenerator : Bool) (context : Context) : Context :=
  { context with allowsIn := true, awaits := isAsync, yields := isGenerator, decorates := false }

namespace Grammar

open SfcIndex.Script.Parser

/-- Statements in braces. -/
def block (g : Grammar) : Parser (List Statement) := do
  expect .lbrace
  let statements ← itemsUntil .rbrace g.statement
  expect .rbrace
  return statements

/-- The statements of a function in their braces. -/
def functionBody (g : Grammar) : Parser (List Statement) :=
  within (fun context => { context with allowsIn := true, returns := true, decorates := false })
    (block g)

/-- Where a function stands. -/
inductive FunctionRole where
  | plain
  | constructs
  | accessor (accessor : Accessor)
  deriving Repr, DecidableEq

/-- An accessor that reads takes no parameter, one that writes takes one. -/
def FunctionRole.allows (role : FunctionRole) (parameters : Parameters) : Bool :=
  match role with
  | .accessor .getter => parameters.count = 0 && !parameters.hasRest
  | .accessor .setter => parameters.count = 1 && !parameters.hasRest
  | _ => true

/-- A function from its parameters on. With types a function may have no body, and is then a
statement of its own. -/
def functionRest (g : Grammar) (isAsync isGenerator : Bool) (role : FunctionRole) :
    Parser (Option (List Statement)) :=
  within (Context.inFunction isAsync isGenerator) do
    typeParameters g
    let parameters ← parameters g (role = .constructs)
    unless role.allows parameters do record
    let _ ← returnType g
    if ← isAt .lbrace then
      if (← context).ambient then record
      return some (← functionBody g)
    unless (← language).typed do unexpected
    endStatement
    return none

/-- The name of a function. A declaration must have one; that it is missing is only recorded in
front of parameters. -/
def functionName (declaration : Bool) : Parser (Option Identifier) := do
  if (← kind).isBindingIdentifier then return some (← bindingName)
  if declaration && (← isAt .lparen) then record
  return none

/-- A function from its keyword on. -/
def functionAfterAsync (g : Grammar) (isAsync declaration : Bool) :
    Parser (Option Identifier × Option (List Statement)) := do
  expectWord "function"
  let isGenerator ← eat .star
  let inside (context : Context) : Context :=
    if declaration then context else { context with awaits := isAsync, yields := isGenerator }
  let name ← within inside (functionName declaration)
  return (name, ← functionRest g isAsync isGenerator .plain)

/-- Whether `async` starts a function here. -/
def looksLikeAsyncFunction : Parser Bool := do
  let next ← nextToken
  return (← isAtWord "async") && next.kind.isWord "function" && !next.onNewLine

/-- A function that may be `async`. -/
def functionWithAsync (g : Grammar) (declaration : Bool) :
    Parser (Option Identifier × Option (List Statement)) := do
  let isAsync ← eatWord "async"
  functionAfterAsync g isAsync declaration

/-- A function used as a value. -/
def functionExpression (g : Grammar) : Parser Expr := do
  let start ← startOffset
  let (_, body) ← functionWithAsync g false
  return .function body (← spanFrom start)

end Grammar

end SfcIndex.Script
