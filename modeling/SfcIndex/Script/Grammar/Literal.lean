import SfcIndex.Script.Grammar.Function

/-! # Objects, arrays and arguments -/

namespace SfcIndex.Script.Grammar

open SfcIndex.Script.Parser

/-- Whether a word can be used as a value here. -/
def isReference (word : String) : Parser Bool := do
  let surroundings ← context
  return Word.isIdentifier word || (word = "await" && !surroundings.awaits) ||
    (word = "yield" && !surroundings.yields)

/-- A member of an object that is written as a name alone. A value after `=` makes sense only in a
pattern. -/
def shorthandMember (g : Grammar) (start : Nat) (name : Identifier) : Parser Member := do
  if ← eat .assign then
    let _ ← g.assignment
    modify fun state => { state with pendingDefaults := start :: state.pendingDefaults }
  return .property (.identifier name) (.identifier name) (← spanFrom start)

/-- A method or an accessor from its parameters on. -/
def method (g : Grammar) (start : Nat) (key : Key) (isAsync isGenerator : Bool)
    (role : FunctionRole) : Parser Member := do
  let bodyStart ← startOffset
  let body ← functionRest g isAsync isGenerator role
  return .property key (.function body (← spanFrom bodyStart)) (← spanFrom start)

/-- A member of an object that is not spread. -/
def objectProperty (g : Grammar) : Parser Member := do
  let start ← startOffset
  let found ← modifiers false
  unless found.all (· = "async") do record
  let isAsync := found.contains "async"
  if let some accessor ← eatAccessor then
    let key ← propertyKey g
    return ← method g start key false false (.accessor accessor)
  let isGenerator ← eat .star
  let reference ← match ← kind with
    | .word word => isReference word
    | _ => pure false
  let key ← propertyKey g
  if isGenerator || (← isAt .lparen) || (← isAt .less) then
    return ← method g start key isAsync isGenerator .plain
  unless found.isEmpty do record
  match key with
  | .identifier name =>
    if reference && !(← isAt .colon) then return ← shorthandMember g start name
  | _ => pure ()
  expect .colon
  let value ← g.assignment
  return .property key value (← spanFrom start)

def objectMember (g : Grammar) : Parser Member := do
  let start ← startOffset
  if ← eat .ellipsis then
    let argument ← g.assignment
    return .spread argument (← spanFrom start)
  objectProperty g

/-- Notes that the literal that starts here ends with a comma. -/
def noteTrailingComma (start : Nat) (trailing : Bool) : Parser Unit := do
  if trailing then modify fun state => { state with trailingCommas := start :: state.trailingCommas }

def objectLiteral (g : Grammar) : Parser Expr := do
  let start ← startOffset
  expect .lbrace
  let (members, trailing) ← allowingIn (commaSeparated .rbrace (objectMember g))
  noteTrailingComma start trailing
  expect .rbrace
  return .object members (← spanFrom start)

/-- A value, or a spread of values. -/
def valueOrSpread (g : Grammar) : Parser Element := do
  let start ← startOffset
  if ← eat .ellipsis then
    let argument ← g.assignment
    return .spread argument (← spanFrom start)
  return .value (← g.assignment)

def arrayLiteral (g : Grammar) : Parser Expr := do
  let start ← startOffset
  expect .lbracket
  let (elements, trailing) ← allowingIn (commaSeparated .rbracket do
    if ← isAt .comma then return Element.hole
    valueOrSpread g)
  noteTrailingComma start trailing
  expect .rbracket
  return .array elements (← spanFrom start)

/-- The arguments of a call in their parentheses. -/
def callArguments (g : Grammar) : Parser (List Element) := do
  expect .lparen
  let (arguments, _) ← within (fun context => { context with allowsIn := true, decorates := false })
    (commaSeparated .rparen (valueOrSpread g))
  expect .rparen
  return arguments

end SfcIndex.Script.Grammar
