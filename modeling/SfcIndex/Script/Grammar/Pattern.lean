import SfcIndex.Script.Grammar.Name

/-! # Patterns and parameters -/

namespace SfcIndex.Script.Grammar

open SfcIndex.Script.Parser

/-- A type after a colon, where types are allowed. -/
def typeAnnotation (g : Grammar) : Parser Unit := do
  if ← eatTyped .colon then
    let _ ← g.type

/-- A pattern with the value it takes when there is none. -/
def withInitializer (g : Grammar) (start : Nat) (pattern : Pattern) : Parser Pattern := do
  if ← eat .assign then
    let value ← allowingIn g.assignment
    return .withDefault pattern value (← spanFrom start)
  return pattern

def patternWithInitializer (g : Grammar) : Parser Pattern := do
  let start ← startOffset
  withInitializer g start (← g.pattern)

/-- A pattern for what is left, after its dots. It takes no value of its own. -/
def restPattern (g : Grammar) : Parser Pattern := do
  advance
  let start ← startOffset
  let pattern ← g.pattern
  if ← eatTyped .question then record
  typeAnnotation g
  if ← isAt .assign then record
  withInitializer g start pattern

/-- Patterns with commas between them up to a closing punctuator, which is not read. One for what
is left comes last. -/
def patternsUntil {α : Type} (g : Grammar) (close : Punct) (item : Parser α) :
    Parser (List α × Option Pattern) := do
  let (items, rest) ← loop (fun (found : List α) => do
    let current ← kind
    if current.isPunct close || current.isEnd then return .done (found, none)
    if current.isPunct .ellipsis then
      let rest ← restPattern g
      if (← isAt .comma) && (← nextToken).kind.isPunct close then
        unless (← context).ambient do record
        advance
      return .done (found, some rest)
    let next ← item
    unless ← isAt close do expect .comma
    return .more (next :: found)) []
  return (items.reverse, rest)

/-- An element of an array pattern; nothing stands for a value that is passed over. -/
def arrayPatternElement (g : Grammar) : Parser (Option Pattern) := do
  if ← isAt .comma then return none
  return some (← patternWithInitializer g)

def objectPatternMember (g : Grammar) : Parser PatternMember := do
  let current ← token
  let key ← propertyKey g
  let shorthand := current.kind.isBindingIdentifier && !(← isAt .colon)
  match key, shorthand with
  | .identifier name, true =>
    let value ← withInitializer g current.span.start (.identifier name)
    return .property key value (← spanFrom current.span.start)
  | _, _ =>
    expect .colon
    let value ← patternWithInitializer g
    return .property key value (← spanFrom current.span.start)

/-- The rule for patterns. -/
def patternRule (g : Grammar) : Parser Pattern := do
  let start ← startOffset
  if ← eat .lbrace then
    let (members, rest) ← patternsUntil g .rbrace (objectPatternMember g)
    expect .rbrace
    return .object members rest (← spanFrom start)
  else if ← eat .lbracket then
    let (elements, rest) ← patternsUntil g .rbracket (arrayPatternElement g)
    expect .rbracket
    return .array elements rest (← spanFrom start)
  else return .identifier (← bindingName)

/-! ### Decorators -/

/-- Decorators in front of a class, a member or a parameter. -/
def decorators (g : Grammar) : Parser Unit :=
  loop (fun () => do
    unless ← eat .at do return .done ()
    let _ ← within (fun context => { context with decorates := true }) g.callee
    return .more ()) ()

/-! ### Parameters -/

/-- What the checks of accessors need to know of parameters. -/
structure Parameters where
  count : Nat
  hasRest : Bool

/-- A parameter; only a constructor's may have modifiers. -/
def parameter (g : Grammar) (ofConstructor : Bool) : Parser Unit := do
  decorators g
  let found ← modifiers false
  let allowed := ["public", "private", "protected", "readonly", "override"]
  unless found.isEmpty || (ofConstructor && (← language).typed && found.all allowed.contains) do
    record
  let start ← startOffset
  let pattern ← g.pattern
  let _ ← eatTyped .question
  typeAnnotation g
  let _ ← withInitializer g start pattern

/-- A parameter that only declares the type of `this`. -/
def thisParameter (g : Grammar) : Parser Unit := do
  if (← language).typed && (← isAtWord "this") then
    advance
    typeAnnotation g
    unless ← isAt .rparen do expect .comma

/-- Parameters in their parentheses. -/
def parameters (g : Grammar) (ofConstructor : Bool) : Parser Parameters := do
  expect .lparen
  thisParameter g
  let (items, rest) ← patternsUntil g .rparen (parameter g ofConstructor)
  expect .rparen
  return ⟨items.length, rest.isSome⟩

end SfcIndex.Script.Grammar
