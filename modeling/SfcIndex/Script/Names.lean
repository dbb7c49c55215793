import SfcIndex.Binding
import SfcIndex.Script.Outline

/-! # Names in literals and patterns

An object literal names its properties, an array literal its identifiers and texts, and a pattern
what it declares. Spreads of object literals, and of calls on a literal, are followed.
-/

namespace SfcIndex.Script

namespace Identifier

/-- The binding of a name, placed where the name ends. -/
def binding (category : Category) (identifier : Identifier) : Binding :=
  { name := identifier.name, category, position := identifier.span.stop }

end Identifier

namespace Key

/-- The name that a key is, if it is a non-empty word or text. -/
def identifier? : Key → Option Identifier
  | .identifier word => if word.name.isEmpty then none else some word
  | .text content span => if content.isEmpty then none else some ⟨content, span⟩
  | .other _ => none
  | .computed _ => none

def bindings (category : Category) (key : Key) : List Binding :=
  key.identifier?.toList.map (·.binding category)

end Key

namespace Element

/-- The name that an element of an array literal is. -/
def identifier? : Element → Option Identifier
  | .value (.identifier word) => some word
  | .value (.text content span) => if content.isEmpty then none else some ⟨content, span⟩
  | _ => none

end Element

/-- The names that the elements of an array literal are. -/
def elementBindings (category : Category) (elements : List Element) : List Binding :=
  elements.filterMap fun element => element.identifier?.map (·.binding category)

mutual

/-- The names of an object literal, or of a call on a literal. -/
def Expr.groupBindings (category : Category) : Expr → List Binding
  | .object members _ => memberBindings category members
  | .call _ _ arguments _ => argumentBindings category arguments
  | .wrapped _ inner _ => inner.groupBindings category
  | _ => []

/-- The names of an object literal or an array literal. -/
def Expr.literalBindings (category : Category) : Expr → List Binding
  | .object members _ => memberBindings category members
  | .array elements _ => elementBindings category elements
  | .wrapped _ inner _ => inner.literalBindings category
  | _ => []

/-- The names of a literal that is the first argument. -/
def argumentBindings (category : Category) : List Element → List Binding
  | .value value :: _ => value.literalBindings category
  | _ => []

/-- The names of the members of an object literal. -/
def memberBindings (category : Category) : List Member → List Binding
  | [] => []
  | .property key _ _ :: rest => key.bindings category ++ memberBindings category rest
  | .spread argument _ :: rest => argument.groupBindings category ++ memberBindings category rest

end

theorem Expr.groupBindings_unwrap (category : Category) (expr : Expr) :
    expr.groupBindings category = expr.unwrap.groupBindings category := by
  refine expr.unwrap_induction (motive := fun outer =>
    outer.groupBindings category = expr.unwrap.groupBindings category) rfl ?_
  intro wrapper inner span same
  rwa [Expr.groupBindings]

theorem Expr.literalBindings_unwrap (category : Category) (expr : Expr) :
    expr.literalBindings category = expr.unwrap.literalBindings category := by
  refine expr.unwrap_induction (motive := fun outer =>
    outer.literalBindings category = expr.unwrap.literalBindings category) rfl ?_
  intro wrapper inner span same
  rwa [Expr.literalBindings]

mutual

/-- The names that a pattern declares. -/
def Pattern.bindings (category : Category) : Pattern → List Binding
  | .identifier identifier => [identifier.binding category]
  | .object members rest _ => patternMemberBindings category members ++ restBindings category rest
  | .array elements rest _ => patternElementBindings category elements ++ restBindings category rest
  | .withDefault pattern _ _ => pattern.bindings category

/-- The names that the members of an object pattern declare. -/
def patternMemberBindings (category : Category) : List PatternMember → List Binding
  | [] => []
  | .property _ value _ :: rest => value.bindings category ++ patternMemberBindings category rest

/-- The names that the elements of an array pattern declare. -/
def patternElementBindings (category : Category) : List (Option Pattern) → List Binding
  | [] => []
  | none :: rest => patternElementBindings category rest
  | some pattern :: rest => pattern.bindings category ++ patternElementBindings category rest

/-- The names that the pattern for what is left declares. -/
def restBindings (category : Category) : Option Pattern → List Binding
  | none => []
  | some pattern => pattern.bindings category

end

end SfcIndex.Script
