import SfcIndex.Script.Language
import SfcIndex.Script.Scan.Lexeme

/-! # Parsers of scripts

A parser reads tokens one at a time. It gives up at the first token that the grammar does not
allow; errors that do not hinder reading are only recorded. Speculation is a run whose state is
thrown away when it gives up.
-/

namespace SfcIndex.Script

open Text

/-- Why a parser gave up. -/
inductive GaveUp where
  /-- The grammar does not allow the token. -/
  | unexpected
  /-- The script is nested more deeply than the parser goes. -/
  | tooDeep
  deriving Repr, DecidableEq

def GaveUp.message : GaveUp → String
  | unexpected => "unexpected token"
  | tooDeep => "too deeply nested"

/-- What is said about an error at an offset. -/
def errorAt (what : String) (offset : Nat) : String := s!"{what} at {offset}"

/-- What is said about an error inside a token. -/
def Lexeme.message (lexeme : Lexeme) : String := errorAt "invalid token" lexeme.start.offset

/-- What the surroundings allow. -/
structure Context where
  /-- Whether `in` is an operator. -/
  allowsIn : Bool := true
  /-- Whether `await` is an operator. -/
  awaits : Bool := false
  /-- Whether `yield` is an operator. -/
  yields : Bool := false
  /-- Whether `return` may stand here. -/
  returns : Bool := false
  /-- Whether declarations have no bodies and values. -/
  ambient : Bool := false
  /-- Whether `extends` does not make a type conditional. -/
  plainTypes : Bool := false
  /-- Whether brackets do not continue an expression, as in a decorator. -/
  decorates : Bool := false
  deriving Repr, DecidableEq

/-- The state of a parser: the current token and what was recorded so far. -/
structure State where
  current : Lexeme
  /-- Where the token before the current one ends. -/
  previousStop : Nat
  context : Context
  /-- What is said about the errors recorded so far, last first. -/
  errors : List String
  /-- Whether one of the recorded errors is inside a token. -/
  lexicallyDiagnosed : Bool
  /-- The starts of object members `name = value`, which are errors unless they turn out to be part
  of a pattern. -/
  pendingDefaults : List Nat
  /-- The starts of array and object literals that end with a comma. -/
  trailingCommas : List Nat

/-- A parser of something of type `α`. -/
abbrev Parser := ReaderT Language (StateT State (Except GaveUp))

namespace Parser

variable {α β : Type}

/-! ### Tokens -/

/-- The grammar does not allow what is there. -/
def unexpected : Parser α := throw .unexpected

def language : Parser Language := read

def token : Parser Token := return (← get).current.token

def kind : Parser TokenKind := return (← token).kind

def startOffset : Parser Nat := return (← token).span.start

/-- The extent from an offset up to the end of the last token read. -/
def spanFrom (start : Nat) : Parser Span := return ⟨start, (← get).previousStop⟩

/-- Records an error at the current token and reads on. -/
def record : Parser Unit :=
  modify fun state =>
    { state with
      errors := errorAt "misplaced token" state.current.token.span.start :: state.errors }

/-- Makes a lexeme the current token. -/
def setCurrent (lexeme : Lexeme) : Parser Unit :=
  modify fun state =>
    { state with
      current := lexeme
      errors := if lexeme.faulty then lexeme.message :: state.errors else state.errors
      lexicallyDiagnosed := state.lexicallyDiagnosed || lexeme.faulty }

/-- Goes on to a token that is read in a way of its own from the place after the current one. -/
def advanceWith (reader : Cursor → Lexeme) : Parser Unit := do
  let state ← get
  set { state with previousStop := state.current.token.span.stop }
  setCurrent (reader state.current.rest)

/-- Goes on to the next token, whatever the current one is; a keyword must not have escapes. -/
def advance : Parser Unit := do
  let current ← token
  if current.escaped && current.kind.isWordIn Word.isKeyword then record
  advanceWith Lexeme.read

/-- Goes on from a word that is read as a name, which may have escapes. -/
def advanceName : Parser Unit := advanceWith Lexeme.read

def isAt (punct : Punct) : Parser Bool := return (← kind).isPunct punct

def isAtWord (word : String) : Parser Bool := return (← kind).isWord word

def isAtAny (puncts : List Punct) : Parser Bool := do
  match ← kind with
  | .punct punct => return puncts.contains punct
  | _ => return false

def onNewLine : Parser Bool := return (← token).onNewLine

/-- Goes past a punctuator if it is there. -/
def eat (punct : Punct) : Parser Bool := do
  if ← isAt punct then
    advance
    return true
  return false

/-- Goes past a keyword if it is there. -/
def eatWord (word : String) : Parser Bool := do
  if ← isAtWord word then
    advance
    return true
  return false

/-- Goes past a punctuator if it is there and introduces a type. -/
def eatTyped (punct : Punct) : Parser Bool := do
  if (← language).typed then eat punct else return false

def expect (punct : Punct) : Parser Unit := do unless ← eat punct do unexpected

def expectWord (word : String) : Parser Unit := do unless ← eatWord word do unexpected

/-- Whether a statement may end here without a semicolon. -/
def canEndStatement : Parser Bool := do
  let current ← token
  return current.onNewLine || current.kind = .punct .semicolon || current.kind = .punct .rbrace ||
    current.kind = .endOfText

/-- The end of a statement. -/
def endStatement : Parser Unit := do
  unless ← eat .semicolon do
    unless ← canEndStatement do unexpected

/-! ### Speculation -/

/-- Runs a parser, or nothing at all if it gives up. -/
def attempt (parser : Parser α) : Parser (Option α) := fun language state =>
  match parser language state with
  | .ok (value, after) => .ok (some value, after)
  | .error _ => .ok (none, state)

/-- What a parser would find, without reading anything. -/
def peek (parser : Parser α) : Parser (Option α) := fun language state =>
  match parser language state with
  | .ok (value, _) => .ok (some value, state)
  | .error _ => .ok (none, state)

/-- Whether a test succeeds from here on, without reading anything. -/
def looksLike (test : Parser Bool) : Parser Bool := return (← peek test).getD false

/-- The token after the current one. -/
def nextToken : Parser Token := return (Lexeme.read (← get).current.rest).token

/-! ### Surroundings -/

def context : Parser Context := return (← get).context

/-- Runs a parser in other surroundings. -/
def within (change : Context → Context) (parser : Parser α) : Parser α := do
  let outer ← context
  modify fun state => { state with context := change outer }
  let value ← parser
  modify fun state => { state with context := outer }
  return value

def allowingIn (parser : Parser α) : Parser α :=
  within (fun context => { context with allowsIn := true }) parser

/-! ### Repetition -/

/-- Whether a repetition goes on. -/
inductive Step (α β : Type) where
  | more (value : α)
  | done (value : β)

/-- Repeats a step, at most as often as told. -/
def iterate (step : α → Parser (Step α β)) : (limit : Nat) → α → Parser β
  | 0, _ => throw .tooDeep
  | limit + 1, value => do
    match ← step value with
    | .more next => iterate step limit next
    | .done result => return result

/-- Repeats a step that reads at least one token each time. -/
def loop (step : α → Parser (Step α β)) (start : α) : Parser β := do
  iterate step ((← get).current.start.rest.length + 2) start

/-- Items up to a closing punctuator, which is not read. -/
def itemsUntil (close : Punct) (item : Parser α) : Parser (List α) := do
  let items ← loop (fun found => do
    let current ← kind
    if current.isPunct close || current.isEnd then return .done found
    return .more ((← item) :: found)) []
  return items.reverse

/-- Items with commas between them up to a closing punctuator, which is not read; the flag tells of
a comma after the last one. -/
def commaSeparated (close : Punct) (item : Parser α) : Parser (List α × Bool) := do
  let (items, trailing) ← loop (fun (found, afterComma) => do
    let current ← kind
    if current.isPunct close || current.isEnd then return .done (found, afterComma)
    let next ← item
    if ← isAt close then return .done (next :: found, false)
    expect .comma
    return .more (next :: found, true)) ([], false)
  return (items.reverse, trailing)

end Parser

end SfcIndex.Script
