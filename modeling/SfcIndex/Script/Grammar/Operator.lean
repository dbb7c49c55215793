import SfcIndex.Script.Token

/-! # Operators between operands -/

namespace SfcIndex.Script

/-- How strongly an operator binds its operands. -/
def Punct.strength? : Punct → Option Nat
  | .coalesce => some 1
  | .or => some 2
  | .and => some 3
  | .pipe => some 4
  | .caret => some 5
  | .ampersand => some 6
  | .equal | .strictEqual | .notEqual | .strictNotEqual => some 7
  | .less | .greater | .lessEqual | .greaterEqual => some 8
  | .shiftLeft | .shiftRight | .shiftRightZero => some 9
  | .plus | .minus => some 10
  | .star | .slash | .percent => some 11
  | .power => some 12
  | _ => none

/-- The words that are operators between operands; the last two stand before a type. -/
def Word.binaryOperators : List String := ["in", "instanceof", "as", "satisfies"]

/-- How strongly the operator that a token is binds its operands. -/
def TokenKind.strength? : TokenKind → Option Nat
  | .punct mark => mark.strength?
  | .word name => if Word.binaryOperators.contains name then some 8 else none
  | _ => none

/-- Whether an operator of the given strength goes on after operands bound by `floor`. Only `**`
takes another of its own strength to its right. -/
def bindsAbove (strength floor : Nat) : Bool := floor < strength || (strength = 12 && floor = 12)

/-- Whether an expression can start with a token. -/
def TokenKind.startsExpression : TokenKind → Bool
  | .word name =>
    Word.isIdentifier name || ["await", "yield", "this", "super", "null", "true", "false",
      "function", "class", "new", "delete", "typeof", "void", "import"].contains name
  | .privateName _ => true
  | .number _ => true
  | .text _ => true
  | .template _ _ => true
  | .punct mark =>
    [Punct.lparen, .lbracket, .lbrace, .slash, .slashAssign, .plus, .minus, .tilde, .bang,
      .increment, .decrement, .less, .at].contains mark
  | _ => false

end SfcIndex.Script
