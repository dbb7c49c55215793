import SfcIndex.Script.Names

/-! # Components described by an object

The object that a module exports by default, or hands to the function whose result it exports,
describes a component: a few of its properties name what the template can use.
-/

namespace SfcIndex.Script

namespace Expr

/-- The members of an object literal. -/
def members? (expr : Expr) : Option (List Member) :=
  match expr.unwrap with
  | .object members _ => some members
  | _ => none

/-- The members of the object that describes a component. -/
def descriptor? (expr : Expr) : Option (List Member) :=
  match expr.unwrap with
  | .object members _ => some members
  | .call _ _ (.value first :: _) _ => first.members?
  | _ => none

end Expr

/-- The object literal that a statement returns. -/
def Statement.returned? : Statement → Option (List Member)
  | .returns (some value) _ => value.members?
  | _ => none

/-- The object literal that a function returns: that of its first statement that returns one, or
the body of an arrow function. -/
def Expr.returned? (function : Expr) : Option (List Member) :=
  match function.unwrap with
  | .function (some body) _ => body.findSome? Statement.returned?
  | .arrow (.block body) _ => body.findSome? Statement.returned?
  | .arrow (.expression value) _ => value.members?
  | _ => none

/-- The names that one option of a component introduces. -/
def optionBindings (name : String) (value : Expr) : List Binding :=
  let ofMembers (category : Category) (members : Option (List Member)) : List Binding :=
    members.elim [] (memberBindings category)
  match name with
  | "components" => ofMembers .component value.members?
  | "props" => value.literalBindings .prop
  | "setup" => ofMembers .setup value.returned?
  | "data" => ofMembers .data value.returned?
  | "computed" => value.groupBindings .computed
  | "methods" => value.groupBindings .method
  | _ => []

/-- The names that a member of a component's object introduces; options are written as words. -/
def Member.optionBindings : Member → List Binding
  | .property (.identifier key) value _ => Script.optionBindings key.name value
  | _ => []

/-- What a module exports by default first. -/
def defaultExport? (statements : List Statement) : Option DefaultExport :=
  statements.findSome? fun
    | .exportDefault value _ => some value
    | _ => none

namespace DefaultExport

/-- The names of a component described by an object. -/
def bindings : DefaultExport → List Binding
  | .expression value => (value.descriptor?.getD []).flatMap Member.optionBindings
  | _ => []

/-- Whether the component is a class, whose names are not known. -/
def isClass : DefaultExport → Bool
  | .classDeclaration _ => true
  | _ => false

end DefaultExport

end SfcIndex.Script
