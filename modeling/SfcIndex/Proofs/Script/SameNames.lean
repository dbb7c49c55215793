import SfcIndex.Script.Analysis

/-! # Expressions that name the same

Two expressions name the same (`Expr.SameNames`) if no option of a component, no spread and no call
tells them apart. That depends only on what is read of them: the members of an object literal, the
first argument of a call, the object that a function returns.
-/

namespace SfcIndex.Script

/-- Members in a row give their names in a row. -/
theorem memberBindings_append (category : Category) (members rest : List Member) :
    memberBindings category (members ++ rest) =
      memberBindings category members ++ memberBindings category rest := by
  induction members with
  | nil => rw [memberBindings, List.nil_append, List.nil_append]
  | cons member members ih =>
    cases member with
    | property key value span =>
      simp only [List.cons_append, memberBindings, ih, List.append_assoc]
    | spread argument span =>
      simp only [List.cons_append, memberBindings, ih, List.append_assoc]

/-- The names of the object that a body returns. -/
def returnedNames (category : Category) (body : List Statement) : List Binding :=
  (body.findSome? Statement.returned?).elim [] (memberBindings category)

namespace Expr

/-- The names of an object literal, and none if it is none. -/
def objectNames? (category : Category) (expr : Expr) : Option (List Binding) :=
  expr.members?.map (memberBindings category)

/-- The names of the object that a function returns. -/
def functionNames (category : Category) (function : Expr) : List Binding :=
  function.returned?.elim [] (memberBindings category)

/-- A function or an arrow function with a body in braces. -/
def ofBody (arrow : Bool) (body : List Statement) (span : Span) : Expr :=
  if arrow then .arrow (.block body) span else .function (some body) span

/-- Two expressions name the same wherever they stand below an option. -/
structure SameNames (expr other : Expr) : Prop where
  group : ∀ category, expr.groupBindings category = other.groupBindings category
  literal : ∀ category, expr.literalBindings category = other.literalBindings category
  object : ∀ category, expr.objectNames? category = other.objectNames? category
  function : ∀ category, expr.functionNames category = other.functionNames category

namespace SameNames

theorem symm {expr other : Expr} (same : expr.SameNames other) : other.SameNames expr :=
  ⟨fun category => (same.group category).symm, fun category => (same.literal category).symm,
    fun category => (same.object category).symm, fun category => (same.function category).symm⟩

theorem trans {expr other last : Expr} (left : expr.SameNames other)
    (right : other.SameNames last) : expr.SameNames last :=
  ⟨fun category => (left.group category).trans (right.group category),
    fun category => (left.literal category).trans (right.literal category),
    fun category => (left.object category).trans (right.object category),
    fun category => (left.function category).trans (right.function category)⟩

/-- What is wrapped around an expression does not change its names. -/
theorem unwrapped (wrapper : Wrapper) (inner : Expr) (span : Span) :
    (Expr.wrapped wrapper inner span).SameNames inner := by
  refine ⟨fun category => ?_, fun category => ?_, fun _ => rfl, fun _ => rfl⟩
  · rw [groupBindings]
  · rw [literalBindings]

theorem wrapped {inner inner' : Expr} (same : inner.SameNames inner') (wrapper : Wrapper)
    (span span' : Span) :
    (Expr.wrapped wrapper inner span).SameNames (.wrapped wrapper inner' span') :=
  ((unwrapped wrapper inner span).trans same).trans (unwrapped wrapper inner' span').symm

theorem ofMembers {members members' : List Member}
    (same : ∀ category, memberBindings category members = memberBindings category members')
    (span span' : Span) : (Expr.object members span).SameNames (.object members' span') := by
  refine ⟨fun category => ?_, fun category => ?_, fun category => ?_, fun _ => rfl⟩
  · rw [groupBindings, groupBindings, same]
  · rw [literalBindings, literalBindings, same]
  · exact congrArg some (same category)

theorem ofElements {elements elements' : List Element}
    (same : ∀ category, elementBindings category elements = elementBindings category elements')
    (span span' : Span) : (Expr.array elements span).SameNames (.array elements' span') := by
  refine ⟨fun _ => rfl, fun category => ?_, fun _ => rfl, fun _ => rfl⟩
  rw [literalBindings, literalBindings, same]

/-- Calls have the same names when their arguments have. -/
theorem ofArguments {arguments arguments' : List Element}
    (same : ∀ category, argumentBindings category arguments = argumentBindings category arguments')
    (callee callee' : Expr) (types types' : List TypeOutline) (span span' : Span) :
    (Expr.call callee types arguments span).SameNames (.call callee' types' arguments' span') := by
  refine ⟨fun category => ?_, fun _ => rfl, fun _ => rfl, fun _ => rfl⟩
  rw [groupBindings, groupBindings, same]

/-- Functions have the same names when what they return has. -/
theorem ofReturned {body body' : List Statement}
    (same : ∀ category, returnedNames category body = returnedNames category body')
    (arrow : Bool) (span span' : Span) :
    (Expr.ofBody arrow body span).SameNames (.ofBody arrow body' span') := by
  cases arrow with
  | false => exact ⟨fun _ => rfl, fun _ => rfl, fun _ => rfl, same⟩
  | true => exact ⟨fun _ => rfl, fun _ => rfl, fun _ => rfl, same⟩

/-- Expressions with the same names have the same members. -/
theorem elim_members? {expr other : Expr} (same : expr.SameNames other) (category : Category) :
    expr.members?.elim [] (memberBindings category) =
      other.members?.elim [] (memberBindings category) := by
  have names := congrArg (Option.elim · [] id) (same.object category)
  simpa only [objectNames?, Option.elim_map, Function.id_comp] using names

/-- Arrows have the same names when their values have. -/
theorem concise {value value' : Expr} (same : value.SameNames value') (span span' : Span) :
    (Expr.arrow (.expression value) span).SameNames (.arrow (.expression value') span') :=
  ⟨fun _ => rfl, fun _ => rfl, fun _ => rfl, same.elim_members?⟩

/-- No option tells the two apart. -/
theorem optionBindings_eq {expr other : Expr} (same : expr.SameNames other) (name : String) :
    optionBindings name expr = optionBindings name other := by
  unfold optionBindings
  split
  · exact same.elim_members? .component
  · exact same.literal .prop
  · exact same.function .setup
  · exact same.function .data
  · exact same.group .computed
  · exact same.group .method
  · rfl

end SameNames

end Expr

section Places

variable {value value' : Expr}

/-- The value of a property does not change what the members name. -/
theorem memberBindings_property (category : Category) (before after : List Member) (key : Key)
    (value value' : Expr) (span span' : Span) :
    memberBindings category (before ++ .property key value span :: after) =
      memberBindings category (before ++ .property key value' span' :: after) := by
  simp only [memberBindings_append, memberBindings]

/-- A spread value can be changed for one with the same names. -/
theorem memberBindings_spread (category : Category) (same : value.SameNames value')
    (before after : List Member) (span span' : Span) :
    memberBindings category (before ++ .spread value span :: after) =
      memberBindings category (before ++ .spread value' span' :: after) := by
  simp only [memberBindings_append, memberBindings, same.group category]

/-- An argument can be changed for one with the same names. -/
theorem argumentBindings_value (category : Category) (same : value.SameNames value')
    (before after : List Element) :
    argumentBindings category (before ++ .value value :: after) =
      argumentBindings category (before ++ .value value' :: after) := by
  cases before with
  | nil => simp only [List.nil_append, argumentBindings, same.literal category]
  | cons first before =>
    cases first with
    | value value => simp only [List.cons_append, argumentBindings]
    | spread argument extent => rfl
    | hole => rfl

/-- The first statement that returns an object tells what is returned. -/
theorem returnedNames_cons (category : Category) (statement : Statement) (body : List Statement) :
    returnedNames category (statement :: body) =
      (statement.returned?.map (memberBindings category)).getD (returnedNames category body) := by
  unfold returnedNames
  rw [List.findSome?_cons]
  cases statement.returned? <;> rfl

/-- The end of a body can be changed for one that returns the same names. -/
theorem returnedNames_append (category : Category) {tail tail' : List Statement}
    (same : returnedNames category tail = returnedNames category tail') (before : List Statement) :
    returnedNames category (before ++ tail) = returnedNames category (before ++ tail') := by
  induction before with
  | nil => exact same
  | cons statement before ih =>
    rw [List.cons_append, List.cons_append, returnedNames_cons, returnedNames_cons, ih]

/-- A returned value can be changed for one with the same names. -/
theorem returnedNames_value (category : Category) (same : value.SameNames value')
    (before after : List Statement) (span span' : Span) :
    returnedNames category (before ++ .returns (some value) span :: after) =
      returnedNames category (before ++ .returns (some value') span' :: after) := by
  refine returnedNames_append category ?_ before
  rw [returnedNames_cons, returnedNames_cons]
  exact congrArg (Option.getD · _) (same.object category)

end Places

namespace Expr

/-- The names of the options of an object literal. -/
def optionNames (expr : Expr) : List Binding :=
  (expr.members?.getD []).flatMap Member.optionBindings

/-- The names of the component that an expression describes. -/
def componentNames (expr : Expr) : List Binding :=
  (expr.descriptor?.getD []).flatMap Member.optionBindings

/-- Two expressions have the same options, themselves or as the first argument of a call. -/
structure SameOptions (expr other : Expr) : Prop where
  options : expr.optionNames = other.optionNames
  component : expr.componentNames = other.componentNames

namespace SameOptions

theorem ofMembers {members members' : List Member}
    (same : members.flatMap Member.optionBindings = members'.flatMap Member.optionBindings)
    (span span' : Span) : (Expr.object members span).SameOptions (.object members' span') :=
  ⟨same, same⟩

theorem wrapped {inner inner' : Expr} (same : inner.SameOptions inner') (wrapper : Wrapper)
    (span span' : Span) :
    (Expr.wrapped wrapper inner span).SameOptions (.wrapped wrapper inner' span') :=
  ⟨same.options, same.component⟩

/-- Of a call, the first argument may describe the component. -/
theorem first {value value' : Expr} (same : value.SameOptions value') (callee callee' : Expr)
    (types types' : List TypeOutline) (later later' : List Element) (span span' : Span) :
    (Expr.call callee types (.value value :: later) span).SameOptions
      (.call callee' types' (.value value' :: later') span') :=
  ⟨rfl, same.options⟩

end SameOptions

end Expr

/-- The value of an option can be changed for one with the same names. -/
theorem optionBindings_value {value value' : Expr} (key : Key)
    (same : ∀ word, key = .identifier word →
      optionBindings word.name value = optionBindings word.name value')
    (before after : List Member) (span span' : Span) :
    (before ++ .property key value span :: after).flatMap Member.optionBindings =
      (before ++ .property key value' span' :: after).flatMap Member.optionBindings := by
  have kept : (Member.property key value span).optionBindings =
      (Member.property key value' span').optionBindings := by
    cases key with
    | identifier word => exact same word rfl
    | _ => rfl
  simp only [List.flatMap_append, List.flatMap_cons, kept]

/-- A spread value does not change the options. -/
theorem optionBindings_spread (before after : List Member) (argument argument' : Expr)
    (span span' : Span) :
    (before ++ .spread argument span :: after).flatMap Member.optionBindings =
      (before ++ .spread argument' span' :: after).flatMap Member.optionBindings := by
  simp only [List.flatMap_append, List.flatMap_cons, Member.optionBindings]

/-- A statement matters to what is read of the default export by what it exports by default
itself. -/
theorem defaultExport?_place {α : Type} {reading : DefaultExport → α} {old new : Statement}
    (same : (defaultExport? [old]).map reading = (defaultExport? [new]).map reading)
    (before after : List Statement) :
    (defaultExport? (before ++ old :: after)).map reading =
      (defaultExport? (before ++ new :: after)).map reading := by
  have split (statements rest : List Statement) : defaultExport? (statements ++ rest) =
      (defaultExport? statements).or (defaultExport? rest) := List.findSome?_append
  rw [← List.singleton_append, ← List.singleton_append (x := new)]
  simp only [split, Option.map_or, same]

/-- The default export can be changed for one with the same names. -/
theorem outlineBindings_exported {old new : Statement}
    (same : (defaultExport? [old]).map DefaultExport.bindings =
      (defaultExport? [new]).map DefaultExport.bindings) (before after : List Statement) :
    outlineBindings false (before ++ old :: after) =
      outlineBindings false (before ++ new :: after) := by
  have names (statements : List Statement) : outlineBindings false statements =
      ((defaultExport? statements).map DefaultExport.bindings).getD [] := by
    unfold outlineBindings
    cases defaultExport? statements <;> rfl
  rw [names, names, defaultExport?_place same before after]

/-- A declarator can be changed for one with the same names. -/
theorem setupBindings_declarator {old new : Declarator}
    (same : old.setupBindings = new.setupBindings) (before after : List Declarator)
    (span span' : Span) :
    (Statement.variables (before ++ old :: after) span).setupBindings =
      (Statement.variables (before ++ new :: after) span').setupBindings := by
  simp only [Statement.setupBindings, List.flatMap_append, List.flatMap_cons, same]

/-- A statement can be changed for one that declares the same names. -/
theorem outlineBindings_setup {old new : Statement} (same : old.setupBindings = new.setupBindings)
    (before after : List Statement) :
    outlineBindings true (before ++ old :: after) =
      outlineBindings true (before ++ new :: after) := by
  simp only [outlineBindings, ↓reduceIte, List.flatMap_append, List.flatMap_cons, same]

end SfcIndex.Script
