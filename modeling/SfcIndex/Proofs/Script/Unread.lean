import Mathlib.Logic.Relation
import SfcIndex.Proofs.Script.SameNames

/-! # What names nothing in a script

The value of a property, an argument behind the first, the inside of a function and the default of a
pattern introduce no name. A script that is revised in such places (`Revises`), any number of times,
keeps its names (`outlineBindings_of_revises`).
-/

namespace SfcIndex.Script

/-- A statement returns an object literal. -/
def Statement.ReturnsObject : Statement → Prop
  | .returns (some value) _ => ∃ members span, value.unwrap = .object members span
  | _ => False

/-- A statement declares names at the top level of a setup. -/
def Statement.Declares : Statement → Prop
  | .variables _ _ => True
  | .function _ _ _ => True
  | .classDeclaration _ _ _ => True
  | .expression _ _ => True
  | _ => False

/-- A key is the word for an option that introduces names. -/
def Key.IsOption : Key → Prop
  | .identifier word =>
    word.name ∈ ["components", "props", "setup", "data", "computed", "methods"]
  | _ => False

namespace Expr

/-- An expression is a call of `defineProps` or of `withDefaults`. -/
def CallsDefine (expr : Expr) : Prop :=
  ∃ callee types arguments span, expr.unwrap = .call (.identifier callee) types arguments span ∧
    (callee.name = "defineProps" ∨ callee.name = "withDefaults")

/-- The value of an option is revised in one place that names nothing. -/
inductive Revises : Expr → Expr → Prop where
  | value (before after : List Member) (key : Key) (value value' : Expr)
      (span span' extent extent' : Span) :
      Revises (.object (before ++ .property key value span :: after) extent)
        (.object (before ++ .property key value' span' :: after) extent')
  | spread {argument argument' : Expr} (before after : List Member)
      (span span' extent extent' : Span) (revised : Revises argument argument') :
      Revises (.object (before ++ .spread argument span :: after) extent)
        (.object (before ++ .spread argument' span' :: after) extent')
  | element {element element' : Element} (before after : List Element) (span span' : Span)
      (nameless : element.identifier? = none) (nameless' : element'.identifier? = none) :
      Revises (.array (before ++ element :: after) span)
        (.array (before ++ element' :: after) span')
  | laterArguments (callee callee' : Expr) (types types' : List TypeOutline) (first : Element)
      (later later' : List Element) (span span' : Span) :
      Revises (.call callee types (first :: later) span)
        (.call callee' types' (first :: later') span')
  | firstArgument {value value' : Expr} (callee : Expr) (types : List TypeOutline)
      (later : List Element) (span span' : Span) (revised : Revises value value') :
      Revises (.call callee types (.value value :: later) span)
        (.call callee types (.value value' :: later) span')
  | spreadArgument (callee : Expr) (types : List TypeOutline) (argument argument' : Expr)
      (later : List Element) (span span' extent extent' : Span) :
      Revises (.call callee types (.spread argument span :: later) extent)
        (.call callee types (.spread argument' span' :: later) extent')
  | statement {old new : Statement} (arrow : Bool) (before after : List Statement)
      (span span' : Span) (quiet : ¬ old.ReturnsObject) (quiet' : ¬ new.ReturnsObject) :
      Revises (.ofBody arrow (before ++ old :: after) span)
        (.ofBody arrow (before ++ new :: after) span')
  | inserted {new : Statement} (arrow : Bool) (before after : List Statement) (span span' : Span)
      (quiet : ¬ new.ReturnsObject) :
      Revises (.ofBody arrow (before ++ after) span) (.ofBody arrow (before ++ new :: after) span')
  /-- Only the first object literal that is returned counts. -/
  | unreached {statement : Statement} (arrow : Bool) (before after after' : List Statement)
      (span span' : Span) (returns : statement.ReturnsObject) :
      Revises (.ofBody arrow (before ++ statement :: after) span)
        (.ofBody arrow (before ++ statement :: after') span')
  | returned {value value' : Expr} (arrow : Bool) (before after : List Statement)
      (span span' extent extent' : Span) (revised : Revises value value') :
      Revises (.ofBody arrow (before ++ .returns (some value) span :: after) extent)
        (.ofBody arrow (before ++ .returns (some value') span' :: after) extent')
  | concise {value value' : Expr} (span span' : Span) (revised : Revises value value') :
      Revises (.arrow (.expression value) span) (.arrow (.expression value') span')
  | wrapped {inner inner' : Expr} (wrapper : Wrapper) (span span' : Span)
      (revised : Revises inner inner') :
      Revises (.wrapped wrapper inner span) (.wrapped wrapper inner' span')

/-- The description of a component is revised in one place that names nothing. -/
inductive RevisesOptions : Expr → Expr → Prop where
  | option {value value' : Expr} (before after : List Member) (key : Key)
      (span span' extent extent' : Span) (revised : value.Revises value') :
      RevisesOptions (.object (before ++ .property key value span :: after) extent)
        (.object (before ++ .property key value' span' :: after) extent')
  | unknown {key : Key} (before after : List Member) (value value' : Expr)
      (span span' extent extent' : Span) (unknown : ¬ key.IsOption) :
      RevisesOptions (.object (before ++ .property key value span :: after) extent)
        (.object (before ++ .property key value' span' :: after) extent')
  | spread (before after : List Member) (argument argument' : Expr)
      (span span' extent extent' : Span) :
      RevisesOptions (.object (before ++ .spread argument span :: after) extent)
        (.object (before ++ .spread argument' span' :: after) extent')
  | laterArguments (callee callee' : Expr) (types types' : List TypeOutline) (first : Element)
      (later later' : List Element) (span span' : Span) :
      RevisesOptions (.call callee types (first :: later) span)
        (.call callee' types' (first :: later') span')
  | firstArgument {value value' : Expr} (callee : Expr) (types : List TypeOutline)
      (later : List Element) (span span' : Span) (revised : RevisesOptions value value') :
      RevisesOptions (.call callee types (.value value :: later) span)
        (.call callee types (.value value' :: later) span')
  | wrapped {inner inner' : Expr} (wrapper : Wrapper) (span span' : Span)
      (revised : RevisesOptions inner inner') :
      RevisesOptions (.wrapped wrapper inner span) (.wrapped wrapper inner' span')
  /-- What does not describe a component may become anything else that does not. -/
  | undescribed {expr expr' : Expr} (unread : expr.descriptor? = none)
      (unread' : expr'.descriptor? = none) : RevisesOptions expr expr'

/-- An expression is revised in one place that defines no properties. -/
inductive RevisesProps : Expr → Expr → Prop where
  | plain {expr expr' : Expr} (plain : ¬ expr.CallsDefine) (plain' : ¬ expr'.CallsDefine) :
      RevisesProps expr expr'
  | laterArguments (callee : Expr) (types : List TypeOutline) (first : Element)
      (later later' : List Element) (span span' : Span) :
      RevisesProps (.call callee types (first :: later) span)
        (.call callee types (first :: later') span')
  | props {value value' : Expr} {callee : Identifier} (types : List TypeOutline)
      (later : List Element) (span span' : Span) (named : callee.name = "defineProps")
      (revised : value.Revises value') :
      RevisesProps (.call (.identifier callee) types (.value value :: later) span)
        (.call (.identifier callee) types (.value value' :: later) span')
  | defaults {value value' : Expr} {callee : Identifier} (types : List TypeOutline)
      (later : List Element) (span span' : Span) (named : callee.name = "withDefaults")
      (revised : RevisesProps value value') :
      RevisesProps (.call (.identifier callee) types (.value value :: later) span)
        (.call (.identifier callee) types (.value value' :: later) span')
  | spreadArgument (callee : Expr) (types : List TypeOutline) (argument argument' : Expr)
      (later : List Element) (span span' extent extent' : Span) :
      RevisesProps (.call callee types (.spread argument span :: later) extent)
        (.call callee types (.spread argument' span' :: later) extent')
  | wrapped {inner inner' : Expr} (wrapper : Wrapper) (span span' : Span)
      (revised : RevisesProps inner inner') :
      RevisesProps (.wrapped wrapper inner span) (.wrapped wrapper inner' span')

end Expr

/-- A pattern is revised in one default value or one key. -/
inductive Pattern.Revises : Pattern → Pattern → Prop where
  | default (pattern : Pattern) (default default' : Expr) (span span' : Span) :
      Revises (.withDefault pattern default span) (.withDefault pattern default' span')
  | key (before after : List PatternMember) (key key' : Key) (value : Pattern)
      (rest : Option Pattern) (span span' extent extent' : Span) :
      Revises (.object (before ++ .property key value span :: after) rest extent)
        (.object (before ++ .property key' value span' :: after) rest extent')
  | member {value value' : Pattern} (before after : List PatternMember) (key : Key)
      (rest : Option Pattern) (span span' extent extent' : Span) (revised : Revises value value') :
      Revises (.object (before ++ .property key value span :: after) rest extent)
        (.object (before ++ .property key value' span' :: after) rest extent')
  | memberRest {rest rest' : Pattern} (members : List PatternMember) (span span' : Span)
      (revised : Revises rest rest') :
      Revises (.object members (some rest) span) (.object members (some rest') span')
  | element {element element' : Pattern} (before after : List (Option Pattern))
      (rest : Option Pattern) (span span' : Span) (revised : Revises element element') :
      Revises (.array (before ++ some element :: after) rest span)
        (.array (before ++ some element' :: after) rest span')
  | elementRest {rest rest' : Pattern} (elements : List (Option Pattern)) (span span' : Span)
      (revised : Revises rest rest') :
      Revises (.array elements (some rest) span) (.array elements (some rest') span')
  | withDefault {pattern pattern' : Pattern} (default : Expr) (span span' : Span)
      (revised : Revises pattern pattern') :
      Revises (.withDefault pattern default span) (.withDefault pattern' default span')

/-- A declarator is revised in one place of its pattern or its initial value. -/
inductive Declarator.Revises : Declarator → Declarator → Prop where
  | pattern {pattern pattern' : Pattern} (initial : Option Expr) (span span' : Span)
      (revised : pattern.Revises pattern') :
      Revises (.declare pattern initial span) (.declare pattern' initial span')
  | initial {initial initial' : Expr} (pattern : Pattern) (span span' : Span)
      (revised : initial.RevisesProps initial') :
      Revises (.declare pattern (some initial) span) (.declare pattern (some initial') span')

/-- A statement is revised in one place that names nothing; `setup` tells that the script is the
setup of its component. -/
inductive Statement.Revises : (setup : Bool) → Statement → Statement → Prop where
  | exported {value value' : Expr} (span span' : Span) (revised : value.RevisesOptions value') :
      Revises false (.exportDefault (.expression value) span)
        (.exportDefault (.expression value') span')
  | declaration {value value' : DefaultExport} (span span' : Span)
      (undescribed : ∀ expr, value ≠ .expression expr)
      (undescribed' : ∀ expr, value' ≠ .expression expr) :
      Revises false (.exportDefault value span) (.exportDefault value' span')
  /-- Of a module, only what it exports by default is read. -/
  | unexported {old new : Statement} (other : ∀ value span, old ≠ .exportDefault value span)
      (other' : ∀ value span, new ≠ .exportDefault value span) : Revises false old new
  | function (name : Option Identifier) (body body' : Option (List Statement)) (span span' : Span) :
      Revises true (.function name body span) (.function name body' span')
  | classDeclaration (name : Option Identifier) (body body' span span' : Span) :
      Revises true (.classDeclaration name body span) (.classDeclaration name body' span')
  | declarator {old new : Declarator} (before after : List Declarator) (span span' : Span)
      (revised : old.Revises new) :
      Revises true (.variables (before ++ old :: after) span)
        (.variables (before ++ new :: after) span')
  | expression {value value' : Expr} (span span' : Span) (revised : value.RevisesProps value') :
      Revises true (.expression value span) (.expression value' span')
  | undeclaring {old new : Statement} (silent : ¬ old.Declares) (silent' : ¬ new.Declares) :
      Revises true old new

/-- One statement of a script is revised in one place that names nothing. -/
inductive Revises (setup : Bool) : List Statement → List Statement → Prop where
  | statement {old new : Statement} (before after : List Statement)
      (revised : old.Revises setup new) :
      Revises setup (before ++ old :: after) (before ++ new :: after)

/-- A statement that returns no object is passed over. -/
theorem Statement.returned?_eq_none {statement : Statement} (quiet : ¬ statement.ReturnsObject) :
    statement.returned? = none := by
  cases statement with
  | returns argument span =>
    cases argument with
    | none => rfl
    | some value =>
      rw [returned?, Expr.members?]
      cases literal : value.unwrap with
      | object members extent => exact absurd ⟨members, extent, literal⟩ quiet
      | _ => rfl
  | _ => rfl

/-- A statement that returns an object has returned members. -/
theorem Statement.ReturnsObject.exists_returned? {statement : Statement}
    (returns : statement.ReturnsObject) : ∃ members, statement.returned? = some members := by
  match statement with
  | .returns (some value) span =>
    obtain ⟨members, extent, literal⟩ := returns
    refine ⟨members, ?_⟩
    rw [returned?, Expr.members?, literal]

/-- A statement that returns no object literal does not matter to the names of a body. -/
theorem returnedNames_quiet (category : Category) {statement : Statement}
    (quiet : ¬ statement.ReturnsObject) (body : List Statement) :
    returnedNames category (statement :: body) = returnedNames category body := by
  rw [returnedNames_cons, Statement.returned?_eq_none quiet, Option.map_none, Option.getD_none]

namespace Expr

variable {expr expr' : Expr}

/-- A revised expression has the same names. -/
theorem Revises.sameNames (revised : expr.Revises expr') : expr.SameNames expr' := by
  induction revised with
  | value before after key value value' span span' extent extent' =>
    exact .ofMembers (fun category => memberBindings_property ..) extent extent'
  | spread before after span span' extent extent' revised ih =>
    exact .ofMembers (fun category => memberBindings_spread category ih ..) extent extent'
  | element before after span span' nameless nameless' =>
    refine .ofElements (fun category => ?_) span span'
    simp only [elementBindings, List.filterMap_append, List.filterMap_cons, nameless, nameless',
      Option.map_none]
  | laterArguments callee callee' types types' first later later' span span' =>
    refine .ofArguments (fun category => ?_) callee callee' types types' span span'
    cases first with
    | value value => rw [argumentBindings, argumentBindings]
    | spread argument extent => rfl
    | hole => rfl
  | firstArgument callee types later span span' revised ih =>
    exact .ofArguments (fun category => argumentBindings_value category ih [] later) ..
  | spreadArgument callee types argument argument' later span span' extent extent' =>
    refine .ofArguments (fun category => ?_) callee callee types types extent extent'
    rfl
  | statement arrow before after span span' quiet quiet' =>
    refine .ofReturned (fun category => returnedNames_append category ?_ before) arrow span span'
    rw [returnedNames_quiet category quiet, returnedNames_quiet category quiet']
  | inserted arrow before after span span' quiet =>
    refine .ofReturned (fun category => returnedNames_append category ?_ before) arrow span span'
    exact (returnedNames_quiet category quiet after).symm
  | unreached arrow before after after' span span' returns =>
    -- the statement itself settles the names, so its rest is not looked at on either side
    obtain ⟨members, found⟩ := returns.exists_returned?
    refine .ofReturned (fun category => returnedNames_append category ?_ before) arrow span span'
    rw [returnedNames_cons, returnedNames_cons, found, Option.map_some, Option.getD_some,
      Option.getD_some]
  | returned arrow before after span span' extent extent' revised ih =>
    exact .ofReturned (fun category => returnedNames_value category ih before after span span')
      arrow extent extent'
  | concise span span' revised ih => exact ih.concise span span'
  | wrapped wrapper span span' revised ih => exact ih.wrapped wrapper span span'

/-- An unknown option names nothing. -/
theorem optionBindings_unknown {key : Key} (unknown : ¬ key.IsOption) {word : Identifier}
    (spelled : key = .identifier word) (value : Expr) : optionBindings word.name value = [] := by
  subst spelled
  unfold optionBindings
  split
  case h_7 => rfl
  all_goals
    rename_i known
    exact absurd (by simp [Key.IsOption, known]) unknown

/-- An expression that is not read has no members. -/
theorem members?_eq_none (unread : expr.descriptor? = none) : expr.members? = none := by
  unfold descriptor? at unread
  unfold members?
  cases inner : expr.unwrap with
  | object members span =>
    rw [inner] at unread
    cases unread
  | _ => rfl

/-- Revised options name the same. -/
theorem RevisesOptions.sameOptions (revised : expr.RevisesOptions expr') :
    expr.SameOptions expr' := by
  induction revised with
  | option before after key span span' extent extent' revised =>
    exact .ofMembers (optionBindings_value key
      (fun word _ => revised.sameNames.optionBindings_eq word.name) before after span span') ..
  | unknown before after value value' span span' extent extent' unknown =>
    refine .ofMembers (optionBindings_value _ (fun word spelled => ?_) before after span span') ..
    rw [optionBindings_unknown unknown spelled, optionBindings_unknown unknown spelled]
  | spread before after argument argument' span span' extent extent' =>
    exact .ofMembers (optionBindings_spread before after argument argument' span span') ..
  | laterArguments callee callee' types types' first later later' span span' =>
    cases first with
    | value value => exact ⟨rfl, rfl⟩
    | spread argument extent => exact ⟨rfl, rfl⟩
    | hole => exact ⟨rfl, rfl⟩
  | firstArgument callee types later span span' revised ih => exact .first ih ..
  | wrapped wrapper span span' revised ih => exact ih.wrapped wrapper span span'
  | undescribed unread unread' =>
    constructor
    · rw [optionNames, optionNames, members?_eq_none unread, members?_eq_none unread']
    · rw [componentNames, componentNames, unread, unread']

/-- An expression without a call that defines properties defines none. -/
theorem definedProps_plain (expr : Expr) (plain : ¬ expr.CallsDefine) :
    expr.definedProps = [] := by
  cases expr with
  | wrapped wrapper inner span =>
    rw [definedProps]
    exact inner.definedProps_plain plain
  | call callee types arguments span =>
    cases callee with
    | identifier callee =>
      have other : ¬ (callee.name = "defineProps" ∨ callee.name = "withDefaults") :=
        fun named => plain ⟨callee, types, arguments, span, rfl, named⟩
      rw [not_or] at other
      rw [definedProps, if_neg other.1, if_neg other.2]
    | _ => rfl
  | _ => rfl

/-- The first argument of `withDefaults` is revised as a call of `defineProps`, that of
`defineProps` as the value of an option. -/
theorem RevisesProps.definedProps_eq (revised : expr.RevisesProps expr') :
    expr.definedProps = expr'.definedProps := by
  induction revised with
  | plain plain plain' => rw [definedProps_plain _ plain, definedProps_plain _ plain']
  | laterArguments callee types first later later' span span' =>
    cases callee with
    | identifier callee =>
      cases first with
      | value value => simp only [definedProps, argumentBindings, firstDefinedProps]
      | spread argument extent => rfl
      | hole => rfl
    | _ => rfl
  | props types later span span' named revised =>
    rw [definedProps, definedProps, if_pos named, if_pos named, argumentBindings, argumentBindings,
      revised.sameNames.literal]
  | defaults types later span span' named revised ih =>
    have other : ¬ "withDefaults" = "defineProps" := by decide
    rw [definedProps, definedProps, named, if_neg other, if_pos rfl, if_neg other, if_pos rfl,
      firstDefinedProps, firstDefinedProps, ih]
  | spreadArgument callee types argument argument' later span span' extent extent' =>
    cases callee with
    | identifier callee => rfl
    | _ => rfl
  | wrapped wrapper span span' revised ih => rw [definedProps, definedProps, ih]

end Expr

/-- The members of a pattern in a row give their variables in a row. -/
theorem patternMemberBindings_append (category : Category) (members rest : List PatternMember) :
    patternMemberBindings category (members ++ rest) =
      patternMemberBindings category members ++ patternMemberBindings category rest := by
  induction members with
  | nil => rw [patternMemberBindings, List.nil_append, List.nil_append]
  | cons member members ih =>
    obtain ⟨key, value, span⟩ := member
    simp only [List.cons_append, patternMemberBindings, ih, List.append_assoc]

/-- The elements of a pattern in a row give their variables in a row. -/
theorem patternElementBindings_append (category : Category)
    (elements rest : List (Option Pattern)) :
    patternElementBindings category (elements ++ rest) =
      patternElementBindings category elements ++ patternElementBindings category rest := by
  induction elements with
  | nil => rw [patternElementBindings, List.nil_append, List.nil_append]
  | cons element elements ih =>
    cases element with
    | none => simp only [List.cons_append, patternElementBindings, ih]
    | some pattern => simp only [List.cons_append, patternElementBindings, ih, List.append_assoc]

/-- A revised pattern has the same variables. -/
theorem Pattern.Revises.bindings_eq {pattern pattern' : Pattern} (category : Category)
    (revised : pattern.Revises pattern') :
    pattern.bindings category = pattern'.bindings category := by
  induction revised with
  | default => simp only [Pattern.bindings]
  | key => simp only [Pattern.bindings, patternMemberBindings_append, patternMemberBindings]
  | member => simp only [Pattern.bindings, patternMemberBindings_append, patternMemberBindings, *]
  | memberRest members span span' revised ih => simp only [Pattern.bindings, restBindings, ih]
  | element =>
    simp only [Pattern.bindings, patternElementBindings_append, patternElementBindings, *]
  | elementRest elements span span' revised ih => simp only [Pattern.bindings, restBindings, ih]
  | withDefault default span span' revised ih => simp only [Pattern.bindings, ih]

/-- A revised declarator declares the same names. -/
theorem Declarator.Revises.setupBindings_eq {declarator declarator' : Declarator}
    (revised : declarator.Revises declarator') :
    declarator.setupBindings = declarator'.setupBindings := by
  cases revised with
  | pattern initial span span' revised =>
    rw [setupBindings, setupBindings, revised.bindings_eq]
  | initial pattern span span' revised =>
    rw [setupBindings, setupBindings, Option.elim_some, Option.elim_some, revised.definedProps_eq]

/-- A statement that declares nothing gives no names. -/
theorem Statement.setupBindings_eq_nil {statement : Statement} (silent : ¬ statement.Declares) :
    statement.setupBindings = [] := by
  cases statement with
  | returns argument span => rfl
  | exportDefault value span => rfl
  | other span => rfl
  | _ => exact absurd trivial silent

/-- A default export that is no expression names nothing. -/
theorem DefaultExport.bindings_eq_nil {value : DefaultExport}
    (undescribed : ∀ expr, value ≠ .expression expr) : value.bindings = [] := by
  cases value with
  | expression expr => exact absurd rfl (undescribed expr)
  | _ => rfl

/-- A statement of another kind is no default export. -/
theorem defaultExport?_eq_none {statement : Statement}
    (other : ∀ value span, statement ≠ .exportDefault value span) :
    defaultExport? [statement] = none := by
  cases statement with
  | exportDefault value span => exact absurd rfl (other value span)
  | _ => rfl

/-- A revised script has the same names. -/
theorem Revises.outlineBindings_eq {setup : Bool} {before after : List Statement}
    (revised : Revises setup before after) :
    outlineBindings setup before = outlineBindings setup after := by
  obtain ⟨earlier, later, revised⟩ := revised
  cases revised with
  | exported span span' revised =>
    refine outlineBindings_exported ?_ earlier later
    exact congrArg some revised.sameOptions.component
  | declaration span span' undescribed undescribed' =>
    refine outlineBindings_exported ?_ earlier later
    refine congrArg some ?_
    exact (DefaultExport.bindings_eq_nil undescribed).trans
      (DefaultExport.bindings_eq_nil undescribed').symm
  | unexported other other' =>
    refine outlineBindings_exported ?_ earlier later
    rw [defaultExport?_eq_none other, defaultExport?_eq_none other']
  | function name body body' span span' =>
    refine outlineBindings_setup ?_ earlier later
    rfl
  | classDeclaration name body body' span span' =>
    refine outlineBindings_setup ?_ earlier later
    rfl
  | declarator former latter span span' revised =>
    refine outlineBindings_setup ?_ earlier later
    exact setupBindings_declarator revised.setupBindings_eq former latter span span'
  | expression span span' revised =>
    refine outlineBindings_setup ?_ earlier later
    exact revised.definedProps_eq
  | undeclaring silent silent' =>
    refine outlineBindings_setup ?_ earlier later
    rw [Statement.setupBindings_eq_nil silent, Statement.setupBindings_eq_nil silent']

/-- A script keeps its names in whatever way it is revised in places that name nothing. -/
theorem outlineBindings_of_revises {setup : Bool} {before after : List Statement}
    (revised : Relation.EqvGen (Revises setup) before after) :
    outlineBindings setup after = outlineBindings setup before := by
  induction revised with
  | rel before after step => exact step.outlineBindings_eq.symm
  | refl statements => rfl
  | symm before after revised ih => exact ih.symm
  | trans before between after first second ih ih' => exact ih'.trans ih

/-- A component with another first statement and value, and a setup script with another default. -/
theorem outlineBindings_of_revises_both :
    ∃ bindings, bindings = outlineBindings false
        [.exportDefault (.expression (.object [.property (.identifier ⟨"data", ⟨17, 21⟩⟩)
          (.function (some [.returns (some (.object [.property (.identifier ⟨"size", ⟨43, 47⟩⟩)
              (.other .plain ⟨49, 50⟩) ⟨43, 50⟩] ⟨41, 52⟩)) ⟨34, 52⟩]) ⟨21, 54⟩) ⟨17, 54⟩]
          ⟨15, 56⟩)) ⟨0, 56⟩] ∧
      bindings = [⟨"size", .data, 47, none⟩] ∧
      outlineBindings false
        [.exportDefault (.expression (.object [.property (.identifier ⟨"data", ⟨17, 21⟩⟩)
          (.function (some [.expression (.other .plain ⟨26, 32⟩) ⟨26, 33⟩,
            .returns (some (.object [.property (.identifier ⟨"size", ⟨43, 47⟩⟩)
              (.object [] ⟨49, 51⟩) ⟨43, 51⟩] ⟨41, 53⟩)) ⟨34, 53⟩]) ⟨21, 55⟩) ⟨17, 55⟩]
          ⟨15, 57⟩)) ⟨0, 57⟩] = bindings ∧
    ∃ bindings, bindings = outlineBindings true
        [.variables [.declare (.withDefault (.identifier ⟨"size", ⟨9, 13⟩⟩) (.object [] ⟨16, 18⟩)
          ⟨9, 18⟩) (some (.object [] ⟨22, 24⟩)) ⟨8, 24⟩] ⟨0, 24⟩] ∧
      bindings = [⟨"size", .setup, 13, none⟩] ∧
      outlineBindings true
        [.variables [.declare (.withDefault (.identifier ⟨"size", ⟨9, 13⟩⟩) (.array [] ⟨16, 18⟩)
          ⟨9, 18⟩) (some (.array [] ⟨22, 24⟩)) ⟨8, 24⟩] ⟨0, 24⟩] = bindings := by
  refine ⟨_, rfl, rfl, ?_, _, rfl, rfl, ?_⟩
  · refine outlineBindings_of_revises (.trans _ _ _
      (.rel _ _ (.statement [] [] (.exported _ ⟨0, 57⟩ (.option [] [] _ _ ⟨17, 55⟩ _ ⟨15, 57⟩
        (.returned false [] [] _ ⟨34, 53⟩ _ ⟨21, 55⟩
          (.value [] [] _ _ (.object [] ⟨49, 51⟩) _ ⟨43, 51⟩ _ ⟨41, 53⟩))))))
      (.rel _ _ (.statement [] [] (.exported _ _ (.option [] [] _ _ _ _ _
        (.inserted false [] _ _ _ ?_))))))
    exact id
  · refine outlineBindings_of_revises (.trans _ _ _
      (.rel _ _ (.statement [] [] (.declarator [] [] _ ⟨0, 24⟩
        (.pattern _ _ ⟨8, 24⟩ (.default _ _ (.array [] ⟨16, 18⟩) _ ⟨9, 18⟩)))))
      (.rel _ _ (.statement [] [] (.declarator [] [] _ _
        (.initial _ _ _ (.plain ?_ ?_))))))
    · rintro ⟨callee, types, arguments, span, call, named⟩
      cases call
    · rintro ⟨callee, types, arguments, span, call, named⟩
      cases call

end SfcIndex.Script
