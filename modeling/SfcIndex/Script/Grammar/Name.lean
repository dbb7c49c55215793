import SfcIndex.Script.Grammar.Rule

/-! # Names and keys -/

namespace SfcIndex.Script.Grammar

open SfcIndex.Script.Parser

/-- A word as it stands, made a name. -/
def takeName : Parser Identifier := do
  let current ← token
  match current.kind with
  | .word name =>
    advanceName
    return ⟨name, current.span⟩
  | _ => unexpected

/-- `await` and `yield` are no names where they are operators. -/
def checkOperatorName : Parser Unit := do
  let surroundings ← context
  if (surroundings.awaits && (← isAtWord "await")) || (surroundings.yields && (← isAtWord "yield"))
  then record

/-- A name where one is declared or used. -/
def bindingName : Parser Identifier := do
  unless (← kind).isBindingIdentifier do unexpected
  checkOperatorName
  takeName

/-- The words that can follow another word that modifies them. -/
def canFollowModifier (next : TokenKind) : Bool :=
  next.isLiteralKey || next.isPunct .lbracket || next.isPunct .lbrace || next.isPunct .star ||
    next.isPunct .ellipsis

/-- Whether the current word modifies what comes next. -/
def modifiesNext : Parser Bool := do
  let next ← nextToken
  match ← kind with
  | .word word =>
    if word = "static" || word = "get" || word = "set" then return canFollowModifier next.kind
    else return canFollowModifier next.kind && !next.onNewLine
  | _ => return false

/-- An accessor reads or writes. -/
inductive Accessor where
  | getter
  | setter
  deriving Repr, DecidableEq

/-- Goes past `get` or `set` if it modifies what comes next. -/
def eatAccessor : Parser (Option Accessor) := do
  unless ← modifiesNext do return none
  if ← eatWord "get" then return some .getter
  if ← eatWord "set" then return some .setter
  return none

/-- The modifiers before a member or a parameter. The block of `static` is none, and `const` is one
only where told. -/
def modifiers (allowConst : Bool) : Parser (List String) := do
  let found ← loop (fun found => do
    match ← kind with
    | .word word =>
      let startsBlock := word = "static" && (← nextToken).kind.isPunct .lbrace
      let known := Word.modifiers.contains word && (allowConst || word != "const")
      if known && !startsBlock && !(word = "static" && found.contains "static") &&
          (← modifiesNext) then
        advance
        return .more (word :: found)
      else return .done found
    | _ => return .done found) []
  return found.reverse

/-- A key in brackets, from its opening bracket on. -/
def computedKey (g : Grammar) : Parser Key := do
  let start ← startOffset
  advance
  let _ ← allowingIn g.assignment
  expect .rbracket
  return .computed (← spanFrom start)

/-- The key of a property. -/
def propertyKey (g : Grammar) : Parser Key := do
  let current ← token
  match current.kind with
  | .text value =>
    advance
    return .text value current.span
  | .number malformed =>
    if malformed then unexpected
    advance
    return .other current.span
  | .punct .lbracket => computedKey g
  | .word _ => return .identifier (← takeName)
  | _ => unexpected

end SfcIndex.Script.Grammar
