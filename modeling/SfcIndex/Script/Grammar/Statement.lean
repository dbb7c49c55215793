import SfcIndex.Script.Grammar.Exchange
import SfcIndex.Script.Grammar.Literal
import SfcIndex.Script.Grammar.Operator
import SfcIndex.Script.Grammar.Target

/-! # Statements -/

namespace SfcIndex.Script.Grammar

open SfcIndex.Script.Parser

/-! ### Expressions as statements -/

/-- An expression as a statement; after a name alone, a colon makes it a label. -/
def expressionStatement (g : Grammar) : Parser Statement := do
  let start ← startOffset
  let value ← g.expression
  match value, ← kind with
  | .identifier _, .punct .colon =>
    advance
    let _ ← g.singleStatement
    otherFrom start
  | _, _ =>
    endStatement
    return .expression value (← spanFrom start)

/-! ### Variables and declarations -/

/-- A statement that starts with `let`, which can also be a name. -/
def letStatement (g : Grammar) (single : Bool) : Parser Statement := do
  let start ← startOffset
  let next ← nextToken
  let operator := match next.kind with
    | .punct punct => punct.isAssignment || punct.strength?.isSome
    | kind => kind.strength?.isSome
  if operator || next.kind.isPunct .dot || next.kind.isPunct .lparen then
    let value ← g.expression
    endStatement
    return .expression value (← spanFrom start)
  else if (single && !next.kind.isPunct .lbracket) || next.kind.isPunct .semicolon then
    let name ← takeName
    endStatement
    return .expression (.identifier name) (← spanFrom start)
  else
    advance
    if single then record
    variablesRest g start .scoped

/-- A statement that starts with another word that declares variables. -/
def variableStatement (g : Grammar) (single : Bool) (keyword : VariableKind) (words : Nat) :
    Parser Statement := do
  let start ← startOffset
  advance
  if words = 2 then advance
  if single && keyword != .hoisted then record
  variablesRest g start keyword

/-- Decorators with the class they belong to, which may be exported. -/
def decoratedStatement (g : Grammar) : Parser Statement := do
  let start ← startOffset
  decorators g
  if ← isAtWord "export" then exportDeclaration g start
  else
    let _ ← declarationModifiers
    unless ← isAtWord "class" do unexpected
    classDeclaration g start

/-! ### Loops -/

/-- The rest of a loop over conditions, from the first semicolon on. -/
def forConditions (g : Grammar) : Parser Unit := do
  expect .semicolon
  unless (← isAt .semicolon) || (← isAt .rparen) do
    let _ ← allowingIn g.expression
  expect .semicolon
  unless ← isAt .rparen do
    let _ ← allowingIn g.expression
  expect .rparen

/-- The rest of a loop over the values or the keys of something. -/
def forEach (g : Grammar) : Parser Unit := do
  if ← eatWord "in" then
    let _ ← allowingIn g.expression
  else
    expectWord "of"
    let _ ← allowingIn g.assignment
  expect .rparen

def atEach : Parser Bool := return (← isAtWord "in") || (← isAtWord "of")

/-- The word that declares the variables of a loop. A name after it decides about `let` and
`using`. -/
def forVariableKind? : Parser (Option (VariableKind × Nat)) := do
  match ← variableKind? with
  | some (.scoped, words) =>
    let declares ← looksLike do
      advance
      let current ← kind
      if current.isPunct .lbrace || current.isPunct .lbracket then return true
      unless current.isBindingIdentifier do return false
      unless current.isWord "of" do return true
      advance
      return (← isAtWord "of") || (← isAtWord "in") ||
        (← isAtAny [.assign, .semicolon, .comma, .colon])
    return if declares then some (.scoped, words) else none
  | some (.disposable, words) =>
    let declares ← looksLike do
      advance
      if words = 2 then advance
      unless ← isAtWord "of" do return true
      advance
      return (← isAtWord "of") || (← isAtAny [.assign, .semicolon, .colon])
    return if declares then some (.disposable, words) else none
  | found => return found

/-- The head of a loop that declares its variables. -/
def forVariables (g : Grammar) (keyword : VariableKind) (words : Nat) : Parser Bool := do
  advance
  if words = 2 then advance
  let found ← within (fun context => { context with allowsIn := false }) (declarators g false)
  if ← atEach then
    forEach g
    return true
  checkComplete keyword found
  forConditions g
  return false

/-- The head of a loop that starts with an expression. -/
def forExpression (g : Grammar) (awaits : Bool) : Parser Bool := do
  let next ← nextToken
  let asyncOf := (← isAtWord "async") && next.kind.isWord "of"
  let startsWithLet ← isAtWord "let"
  let value ← within (fun context => { context with allowsIn := false }) g.expression
  if ← atEach then
    if (← isAtWord "of") && (startsWithLet || (asyncOf && !awaits)) then record
    assignTo value
    forEach g
    return true
  forConditions g
  return false

/-- A loop that starts with `for`. -/
def forStatement (g : Grammar) : Parser Unit := do
  advance
  let awaits ← isAtWord "await"
  if awaits then
    unless (← context).awaits do record
    advance
  expect .lparen
  let iterates ←
    if ← isAt .semicolon then
      forConditions g
      pure false
    else
      match ← forVariableKind? with
      | some (keyword, words) => forVariables g keyword words
      | none => forExpression g awaits
  if awaits && !iterates then record
  let _ ← g.singleStatement

/-! ### Other statements -/

def ifStatement (g : Grammar) : Parser Unit := do
  advance
  let _ ← g.parenthesized
  let _ ← g.singleStatement
  if ← eatWord "else" then
    let _ ← g.singleStatement

def doStatement (g : Grammar) : Parser Unit := do
  advance
  let _ ← g.singleStatement
  expectWord "while"
  let _ ← g.parenthesized
  let _ ← eat .semicolon

/-- A statement of a keyword, an expression in parentheses and a statement. -/
def guardedStatement (g : Grammar) : Parser Unit := do
  advance
  let _ ← g.parenthesized
  let _ ← g.singleStatement

/-- A case of a choice, with its statements. -/
def switchCase (g : Grammar) : Parser Unit := do
  if ← eatWord "case" then
    let _ ← allowingIn g.expression
  else expectWord "default"
  expect .colon
  loop (fun () => do
    if (← isAtWord "case") || (← isAtWord "default") || (← isAt .rbrace) || (← kind).isEnd then
      return .done ()
    let _ ← g.statement
    return .more ()) ()

def switchStatement (g : Grammar) : Parser Unit := do
  advance
  let _ ← g.parenthesized
  expect .lbrace
  let _ ← itemsUntil .rbrace (switchCase g)
  expect .rbrace

def throwStatement (g : Grammar) : Parser Unit := do
  advance
  if ← onNewLine then record
  let _ ← allowingIn g.expression
  endStatement

def tryStatement (g : Grammar) : Parser Unit := do
  advance
  let _ ← block g
  let caught ← eatWord "catch"
  if caught then
    if ← eat .lparen then
      let _ ← g.pattern
      typeAnnotation g
      expect .rparen
    let _ ← block g
  let finished ← eatWord "finally"
  if finished then
    let _ ← block g
  unless caught || finished do record

/-- A jump out of a loop or to its next round, perhaps of the loop with a label. -/
def jumpStatement : Parser Unit := do
  advance
  unless ← canEndStatement do
    unless (← kind).isBindingIdentifier do unexpected
    let _ ← takeName
  endStatement

def returnStatement (g : Grammar) : Parser Statement := do
  let start ← startOffset
  unless (← context).returns do record
  advance
  if ← canEndStatement then
    endStatement
    return .returns none (← spanFrom start)
  let value ← allowingIn g.expression
  endStatement
  return .returns (some value) (← spanFrom start)

/-- The words that start statements which declare nothing. -/
def controlStatement? (g : Grammar) (word : String) : Option (Parser Unit) :=
  match word with
  | "if" => some (ifStatement g)
  | "for" => some (forStatement g)
  | "do" => some (doStatement g)
  | "while" | "with" => some (guardedStatement g)
  | "switch" => some (switchStatement g)
  | "throw" => some (throwStatement g)
  | "try" => some (tryStatement g)
  | "break" | "continue" => some jumpStatement
  | "debugger" => some do
    advance
    endStatement
  | _ => none

/-- A statement that starts with a word. -/
def wordStatement (g : Grammar) (single : Bool) (word : String) : Parser Statement := do
  let start ← startOffset
  let next ← nextToken
  if let some control := controlStatement? g word then
    control
    return ← otherFrom start
  if ← looksLikeAsyncFunction then
    if single then record
    advance
    return ← functionDeclaration g start true
  match word with
  | "return" => returnStatement g
  | "function" => functionDeclaration g start false
  | "class" =>
    if single then record
    classDeclaration g start
  | "import" =>
    if next.kind.isPunct .lparen || next.kind.isPunct .dot then expressionStatement g
    else
      importDeclaration
      otherFrom start
  | "export" => exportDeclaration g start
  | "let" => letStatement g single
  | _ =>
    if word = "const" && next.kind.isWord "enum" && (← language).typed then
      return ← declaration g start
    if let some (keyword, words) ← variableKind? then
      return ← variableStatement g single keyword words
    if ← looksLikeTypedDeclaration then declaration g start
    else expressionStatement g

/-- The rule for statements. -/
def statementRule (g : Grammar) (single : Bool) : Parser Statement := do
  let start ← startOffset
  within (fun context => { context with allowsIn := true }) do
    match ← kind with
    | .punct .lbrace =>
      let _ ← block g
      otherFrom start
    | .punct .semicolon =>
      advance
      otherFrom start
    | .punct .at => decoratedStatement g
    | .word word => wordStatement g single word
    | _ => expressionStatement g

end SfcIndex.Script.Grammar
