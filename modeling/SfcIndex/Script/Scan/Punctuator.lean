import SfcIndex.Script.Token

/-! # Punctuators -/

namespace SfcIndex.Script

/-- The longest punctuator at the start of a text, and the text after it. A `>` is read alone. -/
def punctuatorAt? : List Char → Option (Punct × List Char)
  | '\x7b' :: r => some (.lbrace, r)
  | '\x7d' :: r => some (.rbrace, r)
  | '(' :: r => some (.lparen, r)
  | ')' :: r => some (.rparen, r)
  | '[' :: r => some (.lbracket, r)
  | ']' :: r => some (.rbracket, r)
  | ';' :: r => some (.semicolon, r)
  | ',' :: r => some (.comma, r)
  | ':' :: r => some (.colon, r)
  | '@' :: r => some (.at, r)
  | '~' :: r => some (.tilde, r)
  | '>' :: r => some (.greater, r)
  | '.' :: r => some <| match r with
    | '.' :: '.' :: r => (.ellipsis, r)
    | r => (.dot, r)
  | '?' :: r => some <| match r with
    | '?' :: '=' :: r => (.coalesceAssign, r)
    | '?' :: r => (.coalesce, r)
    | '.' :: r => if r.head?.any Char.isDigit then (.question, '.' :: r) else (.questionDot, r)
    | r => (.question, r)
  | '<' :: r => some <| match r with
    | '<' :: '=' :: r => (.shiftLeftAssign, r)
    | '<' :: r => (.shiftLeft, r)
    | '=' :: r => (.lessEqual, r)
    | r => (.less, r)
  | '=' :: r => some <| match r with
    | '=' :: '=' :: r => (.strictEqual, r)
    | '=' :: r => (.equal, r)
    | '>' :: r => (.arrow, r)
    | r => (.assign, r)
  | '!' :: r => some <| match r with
    | '=' :: '=' :: r => (.strictNotEqual, r)
    | '=' :: r => (.notEqual, r)
    | r => (.bang, r)
  | '+' :: r => some <| match r with
    | '+' :: r => (.increment, r)
    | '=' :: r => (.plusAssign, r)
    | r => (.plus, r)
  | '-' :: r => some <| match r with
    | '-' :: r => (.decrement, r)
    | '=' :: r => (.minusAssign, r)
    | r => (.minus, r)
  | '*' :: r => some <| match r with
    | '*' :: '=' :: r => (.powerAssign, r)
    | '*' :: r => (.power, r)
    | '=' :: r => (.starAssign, r)
    | r => (.star, r)
  | '/' :: r => some <| match r with
    | '=' :: r => (.slashAssign, r)
    | r => (.slash, r)
  | '%' :: r => some <| match r with
    | '=' :: r => (.percentAssign, r)
    | r => (.percent, r)
  | '&' :: r => some <| match r with
    | '&' :: '=' :: r => (.andAssign, r)
    | '&' :: r => (.and, r)
    | '=' :: r => (.ampersandAssign, r)
    | r => (.ampersand, r)
  | '|' :: r => some <| match r with
    | '|' :: '=' :: r => (.orAssign, r)
    | '|' :: r => (.or, r)
    | '=' :: r => (.pipeAssign, r)
    | r => (.pipe, r)
  | '^' :: r => some <| match r with
    | '=' :: r => (.caretAssign, r)
    | r => (.caret, r)
  | _ => none

/-- The longest operator that starts with `>`, from the text after it. -/
def greaterOperator : List Char → Punct × List Char
  | '>' :: '>' :: '=' :: r => (.shiftRightZeroAssign, r)
  | '>' :: '>' :: r => (.shiftRightZero, r)
  | '>' :: '=' :: r => (.shiftRightAssign, r)
  | '>' :: r => (.shiftRight, r)
  | '=' :: r => (.greaterEqual, r)
  | r => (.greater, r)

end SfcIndex.Script
