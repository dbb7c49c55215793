import SfcIndex.Script.Names

/-! # Scripts that are the setup of a component

Every declaration at the top level is a name that the template can use, and `defineProps` adds the
names of the properties.
-/

namespace SfcIndex.Script

/-- The names of the properties of an object type. -/
def TypeOutline.bindings (category : Category) : TypeOutline → List Binding
  | .literal members _ => members.flatMap fun
    | .property key _ => key.bindings category
    | .other _ => []
  | .other _ => []

mutual

/-- The properties that a call of `defineProps` declares, perhaps inside `withDefaults`. -/
def Expr.definedProps : Expr → List Binding
  | .call (.identifier callee) types arguments _ =>
    if callee.name = "defineProps" then
      types.flatMap (·.bindings .prop) ++ argumentBindings .prop arguments
    else if callee.name = "withDefaults" then firstDefinedProps arguments
    else []
  | .wrapped _ inner _ => inner.definedProps
  | _ => []

/-- The properties that the first argument declares. -/
def firstDefinedProps : List Element → List Binding
  | .value value :: _ => value.definedProps
  | _ => []

end

/-- The names that a declared pattern and its value introduce. -/
def Declarator.setupBindings : Declarator → List Binding
  | .declare pattern initial _ => pattern.bindings .setup ++ initial.elim [] Expr.definedProps

/-- The names that a statement at the top level introduces. -/
def Statement.setupBindings : Statement → List Binding
  | .variables declarators _ => declarators.flatMap Declarator.setupBindings
  | .function name _ _ => name.toList.map (·.binding .setup)
  | .classDeclaration name _ _ => name.toList.map (·.binding .setup)
  | .expression value _ => value.definedProps
  | _ => []

end SfcIndex.Script
