import SfcIndex.Script.Analysis
import SfcIndex.Script.Grammar.Expression
import SfcIndex.Script.Grammar.Statement

/-! # Reading a script

The rules of the grammar are tied together by depth: at each level of nesting the rules refer to
those of the level below, and at the lowest level nothing can be read.
-/

namespace SfcIndex.Script

open Text

namespace Grammar

/-- One level of the grammar over the levels below. -/
def extend (g : Grammar) : Grammar
  | .statement single => statementRule g single
  | .assignment arrowTypes => assignmentRule g arrowTypes
  | .binary floor => binaryRule g floor
  | .unary => unaryRule g
  | .callee => calleeRule g
  | .primary => primaryRule g
  | .pattern => patternRule g
  | .type => typeRule g
  | .element nested => elementRule g nested

/-- The grammar for scripts that are nested at most so many rules deep. -/
def ofDepth : Nat → Grammar
  | 0 => fun _ => throw .tooDeep
  | depth + 1 => extend (ofDepth depth)

/-- The statements of a script. -/
def statements (g : Grammar) : Parser (List Statement) := do
  let found ← Parser.loop (fun found => do
    if (← Parser.kind).isEnd then return .done found
    return .more ((← g.statement) :: found)) []
  return found.reverse

end Grammar

/-- The place after a line at the start that names an interpreter. -/
def afterInterpreter (text : List Char) : Cursor :=
  match text with
  | '#' :: '!' :: _ => (Cursor.atStart text).skipWhile fun c => !isLineEnd c
  | _ => Cursor.atStart text

/-- The state of a parser at the start of a text. In a module `await` is an operator. -/
def State.initial (text : List Char) : State :=
  let first := Lexeme.read (afterInterpreter text)
  let first := { first with token := { first.token with onNewLine := true } }
  { current := first
    previousStop := 0
    context := { awaits := true }
    errors := if first.faulty then [first.message] else []
    lexicallyDiagnosed := first.faulty
    pendingDefaults := []
    trailingCommas := [] }

/-- A depth that no text of the given length exceeds: a few rules lie between one token and the
next. -/
def depthFor (length : Nat) : Nat := 16 * length + 64

/-- Reads a script. Values after `=` that no pattern took are errors. -/
def read : Reader := fun language text =>
  match (Grammar.ofDepth (depthFor text.length)).statements language (.initial text) with
  | .error cause => { statements := [], errors := [cause.message], gaveUp := true }
  | .ok (statements, state) =>
    let leftOver := state.pendingDefaults.reverse.map (errorAt "unexpected value")
    { statements, errors := state.errors.reverse ++ leftOver, gaveUp := false }

end SfcIndex.Script
