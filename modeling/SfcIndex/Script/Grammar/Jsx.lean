import SfcIndex.Script.Grammar.Type

/-! # Elements inside scripts -/

namespace SfcIndex.Script.Grammar

open SfcIndex.Script.Parser Text

/-- The current word together with the hyphenated parts after it. -/
def elementWord : Parser String := do
  let state ← get
  match state.current.token.kind with
  | .word _ =>
    let start := state.current.start
    let word := start.rest.takeWhile fun c => Unicode.isIdentifierPart c || c = '-'
    let rest := start.rest.drop word.length
    setCurrent (.make (.word (String.ofList word)) start rest state.current.token.onNewLine false
      false)
    advanceName
    return String.ofList word
  | _ => unexpected

/-- The name of an element. -/
def elementName : Parser String := do
  let first ← elementWord
  if ← eat .colon then return first ++ ":" ++ (← elementWord)
  loop (fun name => do
    unless ← isAt .dot do return .done name
    advance
    return .more (name ++ "." ++ (← elementWord))) first

/-- Goes past a punctuator after which, inside another element, text comes. -/
def expectBefore (nested : Bool) (punct : Punct) : Parser Unit := do
  unless ← isAt punct do unexpected
  if nested then advanceWith Lexeme.readElementText else advance

/-- An expression inside an element, in which a comma has no place. -/
def elementExpression (g : Grammar) : Parser Unit := do
  let commas ← allowingIn (loop (fun (count : Nat) => do
    let _ ← g.assignment
    unless ← eat .comma do return .done count
    return .more (count + 1)) 0)
  unless commas = 0 do record

/-- An expression in braces; the closing brace is not read. -/
def bracedExpression (g : Grammar) : Parser Unit := do
  expect .lbrace
  if ← eat .ellipsis then
    let _ ← allowingIn g.expression
  else unless ← isAt .rbrace do elementExpression g

/-- An attribute of an element. -/
def elementAttribute (g : Grammar) : Parser Unit := do
  if ← eat .lbrace then
    expect .ellipsis
    let _ ← allowingIn g.expression
    expect .rbrace
    return
  let _ ← elementWord
  if ← eat .colon then
    let _ ← elementWord
  unless ← isAt .assign do return
  advanceWith Lexeme.readAttributeValue
  match ← kind with
  | .text _ => advance
  | .punct .lbrace =>
    bracedExpression g
    expect .rbrace
  | .punct .less =>
    let _ ← g (.element false)
  | _ => unexpected

/-- What stands between the tags of an element, up to the `/` of the closing tag. -/
def elementChildren (g : Grammar) : Parser Unit :=
  loop (fun () => do
    match ← kind with
    | .elementText =>
      advanceWith Lexeme.readElementText
      return .more ()
    | .punct .lbrace =>
      bracedExpression g
      expectBefore true .rbrace
      return .more ()
    | .punct .less =>
      if (← nextToken).kind.isPunct .slash then
        advance
        return .done ()
      let _ ← g (.element true)
      return .more ()
    | _ => unexpected) ()

/-- The closing tag of an element after its `/`; the name it should have is given, or none. -/
def closingTag (nested : Bool) (name : Option String) : Parser Unit := do
  let closing ←
    if ← isAt .greater then pure none
    else
      let found ← elementName
      pure (some found)
  unless closing = name do record
  expectBefore nested .greater

/-- The rule for elements, from `<` on. -/
def elementRule (g : Grammar) (nested : Bool) : Parser Expr := do
  let start ← startOffset
  expect .less
  if ← isAt .greater then
    advanceWith Lexeme.readElementText
    elementChildren g
    expect .slash
    closingTag nested none
    return .other .plain (← spanFrom start)
  let name ← elementName
  if (← language).typed then typeArguments g
  loop (fun () => do
    if (← isAt .slash) || (← isAt .greater) || (← kind).isEnd then return .done ()
    elementAttribute g
    return .more ()) ()
  if ← eat .slash then
    expectBefore nested .greater
    return .other .plain (← spanFrom start)
  expectBefore true .greater
  elementChildren g
  expect .slash
  closingTag nested (some name)
  return .other .plain (← spanFrom start)

end SfcIndex.Script.Grammar
