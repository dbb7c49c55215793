import SfcIndex.Script.Grammar.Function

/-! # Classes -/

namespace SfcIndex.Script.Grammar

open SfcIndex.Script.Parser

/-- The value of a field, which sees no `await` and no `yield` of the surroundings. -/
def fieldValue (g : Grammar) : Parser Unit := do
  if ← eat .assign then
    let _ ← within (Context.inFunction false false) g.assignment

/-- The name of a member of a class, which may be private. -/
def memberName (g : Grammar) : Parser Unit := do
  match ← kind with
  | .privateName _ => advance
  | _ =>
    let _ ← propertyKey g

/-- A field or a method from its name on. -/
def fieldOrMethod (g : Grammar) (isAsync : Bool) : Parser Unit := do
  let isGenerator ← eat .star
  memberName g
  let optional ← eatTyped .question
  if isGenerator || (← isAt .lparen) || (← isAt .less) then
    let _ ← functionRest g isAsync isGenerator .plain
  else
    unless optional || (← onNewLine) do
      let _ ← eatTyped .bang
    typeAnnotation g
    fieldValue g
    endStatement

/-- Whether the name here is that of the constructor. -/
def looksLikeConstructor : Parser Bool := do
  let next ← nextToken
  let named := match ← kind with
    | .word name => name = "constructor"
    | .text value => value = "constructor"
    | _ => false
  return named && (next.kind.isPunct .lparen || next.kind.isPunct .less)

/-- A member of a class. -/
def classMember (g : Grammar) : Parser Unit := do
  if ← eat .semicolon then return
  decorators g
  let found ← modifiers true
  if (← isAtWord "static") && (← nextToken).kind.isPunct .lbrace then
    advance
    let _ ← within (fun context => { Context.inFunction false false context with returns := false })
      (block g)
    return
  let declares := found.contains "declare"
  within (fun context => { context with ambient := context.ambient || declares }) do
    if let some accessor ← eatAccessor then
      memberName g
      let _ ← functionRest g false false (.accessor accessor)
    else if !found.contains "static" && (← looksLikeConstructor) then
      advance
      let _ ← functionRest g false false .constructs
    else if ← looksLikeIndexSignature then indexSignature g
    else fieldOrMethod g (found.contains "async")

/-- Something that is extended, with its type arguments. -/
def extended (g : Grammar) : Parser Unit := do
  let _ ← g.callee
  if (← language).typed then typeArguments g

/-- One item or several with commas between them; the answer is how many follow the first. -/
def commaList (item : Parser Unit) : Parser Nat := do
  item
  loop (fun count => do
    unless ← eat .comma do return .done count
    item
    return .more (count + 1)) 0

/-- What a class extends and implements; it extends one class only. -/
def heritage (g : Grammar) : Parser Unit :=
  loop (fun () => do
    if ← eatWord "extends" then
      unless (← commaList (extended g)) = 0 do record
      return .more ()
    else if ← eatWord "implements" then
      let _ ← commaList (namedType g)
      return .more ()
    else return .done ()) ()

/-- A class from its keyword on, as its name and the extent of its body. -/
def classRest (g : Grammar) : Parser (Option Identifier × Span) := do
  expectWord "class"
  let name ←
    if (← kind).isBindingIdentifier && !(← isAtWord "implements") then
      let name ← bindingName
      pure (some name)
    else pure none
  within (fun context => { context with decorates := false }) do
    typeParameters g
    heritage g
    let start ← startOffset
    expect .lbrace
    let _ ← itemsUntil .rbrace (classMember g)
    expect .rbrace
    return (name, ← spanFrom start)

end SfcIndex.Script.Grammar
