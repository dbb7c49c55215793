import SfcIndex.Script.Grammar.Function

/-! # Arrow functions

Parentheses can hold an expression or the parameters of an arrow function. A few tokens decide most
cases; the rest is decided by reading them as parameters and seeing whether `=>` follows.
-/

namespace SfcIndex.Script.Grammar

open SfcIndex.Script.Parser

/-- Whether parameters stand here. -/
inductive Guess where
  | no
  | maybe
  | yes
  deriving Repr, DecidableEq

/-- What the tokens after an opening parenthesis tell. -/
def guessAfterParenthesis : Parser Guess := do
  match ← kind with
  | .punct .rparen =>
    advance
    return if ← isAtAny [.arrow, .colon, .lbrace] then .yes else .no
  | .punct .lbracket | .punct .lbrace => return .maybe
  | .punct .ellipsis => return .yes
  | .word word =>
    let next ← nextToken
    if Word.modifiers.contains word && word ≠ "async" && next.kind.isIdentifier then
      return if next.kind.isWord "as" then .no else .yes
    unless Word.isIdentifier word || word = "this" do return .no
    advanceName
    match ← kind with
    | .punct .colon => return .yes
    | .punct .question =>
      advance
      return if ← isAtAny [.colon, .comma, .assign, .rparen] then .yes else .no
    | .punct .comma | .punct .assign | .punct .rparen => return .maybe
    | _ => return .no
  | _ => return .no

/-- What the tokens after `<` tell: it can open type parameters, an element or a type assertion. -/
def guessAfterLess : Parser Guess := do
  let current ← kind
  unless current.isBindingIdentifier || current.isWord "const" do return .no
  unless (← language).jsx do return .maybe
  let _ ← eatWord "const"
  unless (← kind).isBindingIdentifier do return .no
  advanceName
  if ← eatWord "extends" then return if ← isAtAny [.assign, .greater, .slash] then .no else .yes
  return if ← isAtAny [.comma, .assign] then .yes else .no

/-- What the tokens tell without reading on. -/
def guessArrow : Parser Guess := do
  let guess ← peek do
    if ← isAtWord "async" then
      if (← nextToken).onNewLine then return Guess.no
      advance
    if ← eat .lparen then guessAfterParenthesis
    else if ← eatTyped .less then guessAfterLess
    else return .no
  return guess.getD .no

/-- What is known of an arrow function after its `=>`. -/
structure ArrowHead where
  isAsync : Bool
  hasReturnType : Bool

/-- The `=>` of an arrow function, which stays on the line of its parameters. -/
def arrowMark : Parser Unit := do
  if ← onNewLine then record
  expect .arrow

/-- The parameters of an arrow function, up to its `=>`. -/
def arrowHead (g : Grammar) : Parser ArrowHead := do
  let isAsync ← eatWord "async"
  let hasReturnType ← within
    (fun context => { context with awaits := isAsync || context.awaits }) do
      typeParameters g
      let _ ← parameters g false
      returnType g
  arrowMark
  return ⟨isAsync, hasReturnType⟩

/-- The body of an arrow function. -/
def arrowBody (g : Grammar) (isAsync arrowTypes : Bool) : Parser ArrowBody :=
  within (fun context => { context with awaits := isAsync, yields := false }) do
    if ← isAt .lbrace then return .block (← functionBody g)
    return .expression (← g (.assignment arrowTypes))

/-- An arrow function from its parameters on. -/
def arrowFunction (g : Grammar) (start : Nat) (head : ArrowHead) (arrowTypes : Bool) :
    Parser Expr := do
  let body ← arrowBody g head.isAsync arrowTypes
  return .arrow body (← spanFrom start)

/-- An arrow function, or nothing when the parentheses hold an expression. Where return types are
not allowed, one was read only if a colon follows the whole. -/
def possibleArrow (g : Grammar) (arrowTypes : Bool) : Parser (Option Expr) := do
  let before ← get
  let start := before.current.token.span.start
  match ← attempt (arrowHead g) with
  | none => return none
  | some head =>
    let function ← arrowFunction g start head arrowTypes
    if !arrowTypes && head.hasReturnType && !(← isAt .colon) then
      set before
      return none
    return some function

/-- An arrow function with parentheses, if one stands here. -/
def parenthesizedArrow (g : Grammar) (arrowTypes : Bool) : Parser (Option Expr) := do
  match ← guessArrow with
  | .no => return none
  | .maybe => possibleArrow g arrowTypes
  | .yes =>
    let start ← startOffset
    let head ← arrowHead g
    return some (← arrowFunction g start head arrowTypes)

/-- Whether `async` stands before the one parameter of an arrow function. -/
def looksLikeAsyncArrow : Parser Bool := do
  unless ← isAtWord "async" do return false
  looksLike do
    advance
    if (← onNewLine) || !(← kind).isBindingIdentifier then return false
    advanceName
    return (← isAt .arrow) && !(← onNewLine)

/-- An arrow function whose one parameter has no parentheses, after `async` if that is there. -/
def asyncArrow (g : Grammar) (arrowTypes : Bool) : Parser Expr := do
  let start ← startOffset
  advance
  let _ ← within (fun context => { context with awaits := true }) bindingName
  arrowMark
  arrowFunction g start ⟨true, false⟩ arrowTypes

end SfcIndex.Script.Grammar
