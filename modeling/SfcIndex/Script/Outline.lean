import SfcIndex.Text.Span

/-! # The outline of a script

The outline keeps those parts of a script that can name a binding, with their places. Of everything
else it keeps the extent: an expression that no analysis looks into is `Expr.other`, a statement
that declares nothing at the top level is `Statement.other`.
-/

namespace SfcIndex.Script

/-- A name as it is written in the script, its escapes resolved. -/
structure Identifier where
  name : String
  span : Span
  deriving Repr, DecidableEq

/-- The key of a property. -/
inductive Key where
  | identifier (identifier : Identifier)
  | text (value : String) (span : Span)
  /-- A number or a private name. -/
  | other (span : Span)
  /-- A key in brackets. -/
  | computed (span : Span)
  deriving Repr, DecidableEq

/-- What can be put around an expression without changing what it denotes. -/
inductive Wrapper where
  | parentheses
  | asType
  | satisfiesType
  | typeAssertion
  | nonNull
  deriving Repr, DecidableEq

/-- The kinds of expression that are kept as an extent only, as far as the grammar tells them
apart. -/
inductive Form where
  /-- A property access, which can be assigned to. -/
  | member
  | assignment
  /-- `||` or `&&`, which cannot be mixed with `??`. -/
  | logical
  /-- A function with type arguments but without a call. -/
  | instantiation
  | plain
  deriving Repr, DecidableEq

/-- A member of an object type. -/
inductive TypeMember where
  | property (key : Key) (span : Span)
  /-- A method, an accessor, or a signature without a name. -/
  | other (span : Span)
  deriving Repr, DecidableEq

/-- A type; only that of an object literal shows its inside. -/
inductive TypeOutline where
  | literal (members : List TypeMember) (span : Span)
  | other (span : Span)
  deriving Repr, DecidableEq

mutual

/-- An expression. -/
inductive Expr where
  | identifier (identifier : Identifier)
  | text (value : String) (span : Span)
  | object (members : List Member) (span : Span)
  | array (elements : List Element) (span : Span)
  /-- A function expression, or the function of a method or an accessor; a signature has no
  body. -/
  | function (body : Option (List Statement)) (span : Span)
  | arrow (body : ArrowBody) (span : Span)
  | call (callee : Expr) (typeArguments : List TypeOutline) (arguments : List Element) (span : Span)
  | wrapped (wrapper : Wrapper) (inner : Expr) (span : Span)
  | other (form : Form) (span : Span)

/-- A member of an object literal. -/
inductive Member where
  | property (key : Key) (value : Expr) (span : Span)
  | spread (argument : Expr) (span : Span)

/-- An element of an array literal or an argument of a call. -/
inductive Element where
  | value (value : Expr)
  | spread (argument : Expr) (span : Span)
  /-- Nothing between two commas of an array literal. -/
  | hole

/-- The body of an arrow function. -/
inductive ArrowBody where
  | expression (value : Expr)
  | block (statements : List Statement)

/-- A pattern that declares names. -/
inductive Pattern where
  | identifier (identifier : Identifier)
  | object (members : List PatternMember) (rest : Option Pattern) (span : Span)
  | array (elements : List (Option Pattern)) (rest : Option Pattern) (span : Span)
  | withDefault (pattern : Pattern) (default : Expr) (span : Span)

/-- A member of an object pattern: the key that is looked up and what its value is bound to. -/
inductive PatternMember where
  | property (key : Key) (value : Pattern) (span : Span)

/-- One declared pattern with its initial value. -/
inductive Declarator where
  | declare (pattern : Pattern) (initial : Option Expr) (span : Span)

/-- What a module exports by default. -/
inductive DefaultExport where
  | expression (value : Expr)
  | classDeclaration (name : Option Identifier)
  | function (name : Option Identifier) (body : Option (List Statement))
  /-- A declaration of a type. -/
  | other

/-- A statement. -/
inductive Statement where
  | variables (declarators : List Declarator) (span : Span)
  | function (name : Option Identifier) (body : Option (List Statement)) (span : Span)
  | classDeclaration (name : Option Identifier) (body : Span) (span : Span)
  | expression (value : Expr) (span : Span)
  | returns (argument : Option Expr) (span : Span)
  | exportDefault (value : DefaultExport) (span : Span)
  | other (span : Span)

end

namespace Expr

/-- The extent of an expression. -/
def span : Expr → Span
  | .identifier name => name.span
  | .text _ span => span
  | .object _ span => span
  | .array _ span => span
  | .function _ span => span
  | .arrow _ span => span
  | .call _ _ _ span => span
  | .wrapped _ _ span => span
  | .other _ span => span

/-- The expression inside all wrappers. -/
def unwrap : Expr → Expr
  | .wrapped _ inner _ => unwrap inner
  | expr => expr

/-- What holds inside all wrappers, and goes from the inside of a wrapper to its outside, holds. -/
theorem unwrap_induction {motive : Expr → Prop} (expr : Expr) (inside : motive expr.unwrap)
    (wrapped : ∀ wrapper inner span, motive inner → motive (.wrapped wrapper inner span)) :
    motive expr := by
  match expr with
  | .wrapped wrapper inner span =>
    exact wrapped wrapper inner span (unwrap_induction inner inside wrapped)
  | .identifier _ => exact inside
  | .text _ _ => exact inside
  | .object _ _ => exact inside
  | .array _ _ => exact inside
  | .function _ _ => exact inside
  | .arrow _ _ => exact inside
  | .call _ _ _ _ => exact inside
  | .other _ _ => exact inside

end Expr

end SfcIndex.Script
