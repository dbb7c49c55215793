import SfcIndex.Script.Grammar.Arrow
import SfcIndex.Script.Grammar.Class
import SfcIndex.Script.Grammar.Jsx
import SfcIndex.Script.Grammar.Literal
import SfcIndex.Script.Grammar.Operator
import SfcIndex.Script.Grammar.Target

/-! # Expressions -/

namespace SfcIndex.Script.Grammar

open SfcIndex.Script.Parser

/-- An expression of which only the extent is kept. -/
def plainFrom (start : Nat) : Parser Expr := return .other .plain (← spanFrom start)

/-! ### Primary expressions -/

/-- A regular expression, of which the slash is the current token. An error inside any token so far
makes it unreadable. -/
def regularExpression : Parser Expr := do
  let state ← get
  let start := state.current.start
  match readPattern false start.next.rest with
  | none => unexpected
  | some afterPattern =>
    let (sound, rest) := readFlags afterPattern
    if state.lexicallyDiagnosed || !sound then unexpected
    setCurrent (.make (.text "") start rest state.current.token.onNewLine false false)
    advance
    plainFrom start.offset

/-- An expression in parentheses. -/
def parenthesizedExpression (g : Grammar) : Parser Expr := do
  let start ← startOffset
  expect .lparen
  let innerStart ← startOffset
  let (values, trailing) ← within
    (fun context => { context with allowsIn := true, decorates := false })
    (commaSeparated .rparen g.assignment)
  if trailing then unexpected
  let innerSpan ← spanFrom innerStart
  expect .rparen
  match values with
  | [] => unexpected
  | [value] => return .wrapped .parentheses value (← spanFrom start)
  | _ => return .wrapped .parentheses (.other .plain innerSpan) (← spanFrom start)

/-- A call or a property of `import`. -/
def importExpression (g : Grammar) : Parser Expr := do
  let start ← startOffset
  advance
  if ← eat .dot then
    if ← eatWord "meta" then return ← plainFrom start
    unless (← isAtWord "source") || (← isAtWord "defer") do unexpected
    advance
  expect .lparen
  within (fun context => { context with allowsIn := true, decorates := false }) do
    let _ ← g.assignment
    if ← eat .comma then
      unless ← isAt .rparen do
        let _ ← g.assignment
        let _ ← eat .comma
    expect .rparen
  plainFrom start

/-- The object of the class above, which is only used to reach into it. -/
def superExpression : Parser Expr := do
  let start ← startOffset
  advance
  unless ← isAtAny [.dot, .lbracket, .lparen] do record
  plainFrom start

/-- A class used as a value. -/
def classExpression (g : Grammar) : Parser Expr := do
  let start ← startOffset
  decorators g
  let _ ← classRest g
  plainFrom start

/-- A name used as a value. -/
def referenceExpression : Parser Expr := do
  checkOperatorName
  return .identifier (← takeName)

/-! ### Calls and property accesses -/

/-- An expression that calls and property accesses are added to. -/
structure Chain where
  value : Expr
  /-- Type arguments after the value that belong to a call if one follows. -/
  pending : Option (List TypeOutline) := none
  /-- Whether `?.` occurs in it. -/
  optional : Bool := false

/-- Type arguments after an expression, if `<` can only be read so. -/
def expressionTypeArguments (g : Grammar) : Parser (Option (List TypeOutline)) := do
  unless (← language).typed do return none
  unless (← isAt .less) || (← isAt .shiftLeft) do return none
  attempt do
    splitLess
    expect .less
    let (types, _) ← commaSeparated .greater
      (within (fun context => { context with plainTypes := false }) g.type)
    unless ← isAt .greater do unexpected
    let state ← get
    if state.current.rest.rest.head? = some '=' then unexpected
    if types.isEmpty then record
    advance
    let next ← token
    let accepted := match next.kind with
      | .punct .lparen => true
      | .template _ _ => true
      | .punct .less | .punct .greater | .punct .plus | .punct .minus => false
      | kind => next.onNewLine || kind.strength?.isSome || !kind.startsExpression
    unless accepted do unexpected
    return types

/-- The value of a chain, with type arguments that no call took. -/
def Chain.settle (chain : Chain) (start : Nat) : Parser Expr := do
  if chain.pending.isSome then return .other .instantiation (← spanFrom start)
  return chain.value

/-- A chain that goes on with an access to a property. -/
def Chain.access (chain : Chain) (start : Nat) : Parser Chain :=
  return { value := .other .member (← spanFrom start), optional := chain.optional }

/-- A template with the function that is applied to it. -/
def taggedTemplate (g : Grammar) (start : Nat) (chain : Chain) : Parser Chain := do
  if chain.optional then record
  templateParts (do let _ ← g.expression) true
  return { value := .other .plain (← spanFrom start), optional := chain.optional }

/-- The name of a property after a dot. -/
def propertyName : Parser Unit := do
  match ← kind with
  | .privateName _ => advance
  | _ =>
    let _ ← takeName

/-- An expression in brackets after a value. -/
def propertyIndex (g : Grammar) : Parser Unit := do
  expect .lbracket
  let _ ← allowingIn g.expression
  expect .rbracket

/-- One more property access, template or set of type arguments, if there is one. -/
def Chain.memberStep (g : Grammar) (start : Nat) (chain : Chain) : Parser (Option Chain) := do
  let typed := (← language).typed
  match ← kind with
  | .punct .dot =>
    advance
    propertyName
    return some (← chain.access start)
  | .punct .lbracket =>
    if (← context).decorates then return none
    propertyIndex g
    return some (← chain.access start)
  | .template _ _ => return some (← taggedTemplate g start chain)
  | .punct .bang =>
    unless typed && !(← onNewLine) do return none
    let value ← chain.settle start
    advance
    return some { value := .wrapped .nonNull value (← spanFrom start), optional := chain.optional }
  | .punct .less | .punct .shiftLeft =>
    match ← expressionTypeArguments g with
    | none => return none
    | some types => return some { chain with pending := some types }
  | _ => return none

/-- A call of the chain's value, from its parentheses on. -/
def Chain.call (g : Grammar) (start : Nat) (chain : Chain) : Parser Chain := do
  let arguments ← callArguments g
  return {
    value := .call chain.value (chain.pending.getD []) arguments (← spanFrom start)
    optional := chain.optional }

/-- What follows `?.`. -/
def Chain.optionalStep (g : Grammar) (start : Nat) (chain : Chain) : Parser Chain := do
  advance
  let chain := { chain with optional := true }
  match ← kind with
  | .punct .lparen => chain.call g start
  | .punct .lbracket =>
    propertyIndex g
    chain.access start
  | .template _ _ => taggedTemplate g start chain
  | .punct .less | .punct .shiftLeft =>
    match ← expressionTypeArguments g with
    | some types => Chain.call g start { chain with pending := some types }
    | none => unexpected
  | _ =>
    propertyName
    chain.access start

/-- Property accesses without calls, as after `new`. -/
def memberChain (g : Grammar) : Parser Chain := do
  let start ← startOffset
  let first ← g .primary
  loop (fun chain => do
    match ← chain.memberStep g start with
    | some next => return .more next
    | none => return .done chain) (Chain.mk first none false)

/-- The rule for calls and property accesses. One that contains `?.` counts as a whole. -/
def calleeRule (g : Grammar) : Parser Expr := do
  let start ← startOffset
  let first ← g .primary
  let chain ← loop (fun chain => do
    match ← chain.memberStep g start with
    | some next => return .more next
    | none =>
      if ← isAt .lparen then return .more (← chain.call g start)
      if ← isAt .questionDot then return .more (← chain.optionalStep g start)
      return .done chain) (Chain.mk first none false)
  if chain.optional && chain.pending.isNone then return .other .plain (← spanFrom start)
  chain.settle start

/-- The making of an object, after `new`. -/
def newExpression (g : Grammar) : Parser Expr := do
  let start ← startOffset
  advance
  if ← eat .dot then
    unless ← isAtWord "target" do record
    let _ ← takeName
    return ← plainFrom start
  if (← isAtWord "import") && (← nextToken).kind.isPunct .lparen then record
  let _ ← memberChain g
  if ← isAt .questionDot then
    record
  if ← isAt .lparen then
    let _ ← callArguments g
  plainFrom start

/-- The rule for expressions that nothing is added to. -/
def primaryRule (g : Grammar) : Parser Expr := do
  let current ← token
  let start := current.span.start
  match current.kind with
  | .text value =>
    advance
    return .text value current.span
  | .number malformed =>
    if malformed then unexpected
    advance
    plainFrom start
  | .template _ _ =>
    templateParts (do let _ ← allowingIn g.expression) false
    plainFrom start
  | .punct .lparen => parenthesizedExpression g
  | .punct .lbracket => arrayLiteral g
  | .punct .lbrace => objectLiteral g
  | .punct .slash | .punct .slashAssign => regularExpression
  | .punct .at => classExpression g
  | .punct .less => if (← language).jsx then g (.element false) else unexpected
  | .word word =>
    if ← looksLikeAsyncFunction then functionExpression g
    else if Word.isBindingIdentifier word then referenceExpression
    else match word with
      | "this" | "null" | "true" | "false" =>
        advance
        plainFrom start
      | "function" => functionExpression g
      | "class" => classExpression g
      | "new" => newExpression g
      | "super" => superExpression
      | "import" => importExpression g
      | _ => unexpected
  | _ => unexpected

/-! ### Operators -/

/-- Whether the next token, on the same line, can only be the operand of the current word. -/
def operandFollows : Parser Bool := do
  let next ← nextToken
  let operand := match next.kind with
    | .word word => !Word.binaryOperators.contains word && word ≠ "of"
    | .number _ => true
    | .text _ => true
    | _ => false
  return operand && !next.onNewLine

/-- Whether `await` is an operator here. -/
def looksLikeAwait : Parser Bool := do
  unless ← isAtWord "await" do return false
  if (← context).awaits then return true
  operandFollows

/-- A value that is counted up or down, or a value alone. -/
def updateExpression (g : Grammar) : Parser Expr := do
  let start ← startOffset
  if ← isAtAny [.increment, .decrement] then
    advance
    updateOf (← g .unary)
    return ← plainFrom start
  if (← isAt .less) && (← language).jsx then return ← g (.element false)
  let value ← g.callee
  if (← isAtAny [.increment, .decrement]) && !(← onNewLine) then
    updateOf value
    advance
    return ← plainFrom start
  return value

/-- A type in front of a value. -/
def typeAssertion (g : Grammar) : Parser Expr := do
  let start ← startOffset
  expect .less
  let _ ← g.type
  expect .greater
  let value ← g .unary
  return .wrapped .typeAssertion value (← spanFrom start)

/-- The operators in front of their operand. -/
def isUnaryOperator : TokenKind → Bool
  | .punct punct => [Punct.plus, .minus, .tilde, .bang].contains punct
  | .word word => ["typeof", "void", "delete"].contains word
  | _ => false

/-- The rule for operators in front of their operand. -/
def unaryRule (g : Grammar) : Parser Expr := do
  let start ← startOffset
  let current ← kind
  if isUnaryOperator current then
    advance
    let _ ← g .unary
    plainFrom start
  else if ← looksLikeAwait then
    unless (← context).awaits do record
    advance
    let _ ← within (fun context => { context with awaits := true }) (g .unary)
    plainFrom start
  else if current.isPunct .less && !(← language).jsx then
    if (← language).typed then typeAssertion g else unexpected
  else updateExpression g

/-- Puts together an operator that starts with `>`. -/
def mergeGreater : Parser Unit := do
  let state ← get
  if state.current.token.kind.isPunct .greater then
    let start := state.current.start
    let (operator, rest) := greaterOperator start.next.rest
    setCurrent (.make (.punct operator) start rest state.current.token.onNewLine false false)

/-- A type after `as` or `satisfies`. -/
def typeOperation (g : Grammar) (start : Nat) (value : Expr) : Parser Expr := do
  let wrapper := if ← isAtWord "as" then Wrapper.asType else .satisfiesType
  advance
  let _ ← g.type
  return .wrapped wrapper value (← spanFrom start)

/-- Whether a value comes from `||` or `&&`. -/
def isLogical : Expr → Bool
  | .other .logical _ => true
  | _ => false

/-- One more operator with its right operand. -/
def binaryOperation (g : Grammar) (start strength : Nat) (value : Expr) : Parser Expr := do
  let operator ← kind
  advance
  let right ← g (.binary strength)
  if operator.isPunct .coalesce && (isLogical value || isLogical right) then record
  let form := if operator.isPunct .or || operator.isPunct .and then Form.logical else .plain
  return .other form (← spanFrom start)

/-- The rule for operators between operands. -/
def binaryRule (g : Grammar) (floor : Nat) : Parser Expr := do
  let start ← startOffset
  let unary := isUnaryOperator (← kind) || (← looksLikeAwait)
  let (first, signed) ← do
    match ← kind with
    | .privateName _ =>
      unless (← context).allowsIn do unexpected
      advance
      expectWord "in"
      let _ ← g (.binary 8)
      let value ← plainFrom start
      pure (value, false)
    | _ =>
      let value ← g .unary
      pure (value, unary)
  loop (fun (value, signed) => do
    mergeGreater
    let operator ← token
    match operator.kind.strength? with
    | none => return .done value
    | some strength =>
      unless bindsAbove strength floor do return .done value
      if operator.kind.isWord "in" && !(← context).allowsIn then return .done value
      if operator.kind.isWordIn ["as", "satisfies"].contains then
        if operator.onNewLine then return .done value
        unless (← language).typed do record
        return .more (← typeOperation g start value, false)
      if signed && operator.kind.isPunct .power then record
      return .more (← binaryOperation g start strength value, false)) (first, signed)

/-! ### Assignments -/

/-- Whether `yield` is an operator here. -/
def looksLikeYield : Parser Bool := do
  unless ← isAtWord "yield" do return false
  if (← context).yields then return true
  operandFollows

/-- A value handed out of a generator. -/
def yieldExpression (g : Grammar) : Parser Expr := do
  let start ← startOffset
  unless (← context).yields do record
  advance
  if ← onNewLine then return ← plainFrom start
  let delegates ← eat .star
  let current ← token
  let ends := current.kind.isEnd || current.kind.isWord "in" || current.kind.isWord "of" ||
    (← isAtAny [.semicolon, .rbrace, .rbracket, .rparen, .colon, .comma])
  if delegates || !ends then
    let _ ← g.assignment
  plainFrom start

/-- An arrow function whose one parameter is a name that was read. -/
def simpleArrow (g : Grammar) (start : Nat) (arrowTypes : Bool) : Parser Expr := do
  arrowMark
  arrowFunction g start ⟨false, false⟩ arrowTypes

/-- A choice between two values, from `?` on. -/
def conditional (g : Grammar) (start : Nat) (arrowTypes : Bool) : Parser Expr := do
  expect .question
  let _ ← allowingIn (g (.assignment false))
  expect .colon
  let _ ← g (.assignment arrowTypes)
  plainFrom start

/-- The rule for expressions without commas. -/
def assignmentRule (g : Grammar) (arrowTypes : Bool) : Parser Expr := do
  if ← looksLikeYield then return ← yieldExpression g
  if let some function ← parenthesizedArrow g arrowTypes then return function
  if ← looksLikeAsyncArrow then return ← asyncArrow g arrowTypes
  let start ← startOffset
  let value ← g (.binary 0)
  match value, ← kind with
  | .identifier _, .punct .arrow => simpleArrow g start arrowTypes
  | _, .punct punct =>
    if punct.isAssignment then
      if punct = .assign then assignTo value else updateOf value
      advance
      let _ ← g (.assignment arrowTypes)
      return .other .assignment (← spanFrom start)
    else if punct = .question then conditional g start arrowTypes
    else return value
  | _, _ => return value

end SfcIndex.Script.Grammar
