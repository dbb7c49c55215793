import SfcIndex.Text.Span

/-! # Tokens of a script

A token is a word, a literal or a punctuator. Keywords are words: whether a word is a keyword
depends on where it stands, so the classes of words below are asked where that matters.
-/

namespace SfcIndex.Script

/-- The punctuators. A `>` is always read alone; longer operators that start with it are put
together only where an operator is expected. -/
inductive Punct where
  | lbrace | rbrace | lparen | rparen | lbracket | rbracket
  | dot | ellipsis | semicolon | comma | colon | at | tilde | arrow
  | question | questionDot | coalesce | coalesceAssign
  | less | lessEqual | shiftLeft | shiftLeftAssign
  | greater | greaterEqual | shiftRight | shiftRightAssign | shiftRightZero | shiftRightZeroAssign
  | assign | equal | strictEqual | bang | notEqual | strictNotEqual
  | plus | increment | plusAssign | minus | decrement | minusAssign
  | star | starAssign | power | powerAssign | slash | slashAssign | percent | percentAssign
  | ampersand | ampersandAssign | and | andAssign
  | pipe | pipeAssign | or | orAssign | caret | caretAssign
  deriving Repr, DecidableEq

namespace Punct

/-- Whether a punctuator assigns to what stands before it. -/
def isAssignment : Punct → Bool
  | assign | plusAssign | minusAssign | starAssign | powerAssign | slashAssign | percentAssign
  | ampersandAssign | andAssign | pipeAssign | orAssign | caretAssign | coalesceAssign
  | shiftLeftAssign | shiftRightAssign | shiftRightZeroAssign => true
  | _ => false

end Punct

/-- What a token is. -/
inductive TokenKind where
  | endOfText
  /-- A token with an error inside: for the grammar the text ends here. -/
  | broken
  | word (name : String)
  | privateName (name : String)
  /-- A number; one that is malformed denotes no value. -/
  | number (malformed : Bool)
  | text (value : String)
  /-- A part of a template up to its end, or up to a substitution; `sound` tells that its escapes
  are. -/
  | template (last sound : Bool)
  /-- Text between the tags of an element. -/
  | elementText
  | punct (punct : Punct)
  deriving Repr, DecidableEq

/-- A token with its place. -/
structure Token where
  kind : TokenKind
  span : Span
  /-- Whether a line ends between the token before and this one. -/
  onNewLine : Bool
  /-- Whether a word is written with escapes. -/
  escaped : Bool
  deriving Repr, DecidableEq

/-! ### Classes of words -/

namespace Word

/-- The words that never name anything. -/
def reserved : List String :=
  ["break", "case", "catch", "class", "const", "continue", "debugger", "default", "delete", "do",
    "else", "enum", "export", "extends", "false", "finally", "for", "function", "if", "import",
    "in", "instanceof", "new", "null", "return", "super", "switch", "this", "throw", "true", "try",
    "typeof", "var", "void", "while", "with"]

/-- The words that are reserved in strict code only. -/
def strictlyReserved : List String :=
  ["implements", "interface", "let", "package", "private", "protected", "public", "static"]

/-- The words that have a meaning of their own in some places. -/
def contextual : List String :=
  ["await", "yield", "async", "from", "get", "meta", "of", "set", "target", "accessor", "abstract",
    "as", "asserts", "assert", "any", "boolean", "constructor", "declare", "defer", "global",
    "infer", "intrinsic", "is", "keyof", "module", "namespace", "never", "out", "readonly",
    "require", "number", "object", "satisfies", "source", "string", "symbol", "type", "undefined",
    "unique", "using", "unknown", "bigint", "override"]

/-- Whether a word is a keyword anywhere. -/
def isKeyword (word : String) : Bool :=
  reserved.contains word || strictlyReserved.contains word || contextual.contains word

/-- Whether a word can be a name everywhere. -/
def isIdentifier (word : String) : Bool :=
  !reserved.contains word && word != "await" && word != "yield"

/-- Whether a word can be declared as a name. -/
def isBindingIdentifier (word : String) : Bool := !reserved.contains word

/-- Words that can stand before a declaration or a member. -/
def modifiers : List String :=
  ["abstract", "accessor", "async", "const", "declare", "export", "in", "public", "private",
    "protected", "override", "out", "readonly", "static"]

/-- The words for types that need no declaration. -/
def builtinTypes : List String :=
  ["any", "unknown", "string", "object", "symbol", "bigint", "number", "boolean", "never",
    "undefined", "intrinsic"]

end Word

namespace TokenKind

def isPunct (kind : TokenKind) (punct : Punct) : Bool := kind = .punct punct

def isWord (kind : TokenKind) (word : String) : Bool := kind = .word word

/-- Whether a token is a word of a class. -/
def isWordIn (kind : TokenKind) (test : String → Bool) : Bool :=
  match kind with
  | .word name => test name
  | _ => false

def isAnyWord (kind : TokenKind) : Bool := kind.isWordIn fun _ => true

def isIdentifier (kind : TokenKind) : Bool := kind.isWordIn Word.isIdentifier

def isBindingIdentifier (kind : TokenKind) : Bool := kind.isWordIn Word.isBindingIdentifier

/-- Whether a token can be the key of a property, brackets apart. -/
def isLiteralKey : TokenKind → Bool
  | .word _ => true
  | .text _ => true
  | .number _ => true
  | .privateName _ => true
  | _ => false

/-- Whether the text is over for the grammar. -/
def isEnd : TokenKind → Bool
  | .endOfText => true
  | .broken => true
  | _ => false

end TokenKind

end SfcIndex.Script
