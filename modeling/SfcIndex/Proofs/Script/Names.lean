import SfcIndex.Script.Analysis

/-! # What the names of a script are

Every name of a script is a word or text of it, placed where that ends and seen from everywhere
(`Script.analyze_fromScript`).
-/

namespace SfcIndex.Script

/-- The categories of the names of scripts. -/
def categories : List Category := [.component, .setup, .prop, .data, .computed, .method]

/-- What a script names is seen everywhere. -/
theorem isScoped_eq_false {category : Category} (known : category ∈ categories) :
    category.isScoped = false := by
  revert category
  decide

/-- All bindings are those of identifiers, in categories of scripts. -/
def FromScript (bindings : List Binding) : Prop :=
  ∀ binding ∈ bindings, ∃ identifier : Identifier, ∃ category ∈ categories,
    binding = identifier.binding category

namespace FromScript

theorem nil : FromScript [] := by
  intro binding member
  cases member

/-- Names of scripts stay such names when they are joined. -/
theorem append {first second : List Binding} (left : FromScript first)
    (right : FromScript second) : FromScript (first ++ second) := by
  intro binding member
  rcases List.mem_append.1 member with before | after
  · exact left binding before
  · exact right binding after

/-- Identifiers with a category of scripts are names of scripts. -/
theorem map {category : Category} (known : category ∈ categories) (identifiers : List Identifier) :
    FromScript (identifiers.map (·.binding category)) := by
  intro binding member
  obtain ⟨identifier, -, rfl⟩ := List.mem_map.1 member
  exact ⟨identifier, category, known, rfl⟩

theorem flatMap {α : Type} {items : List α} {names : α → List Binding}
    (each : ∀ item ∈ items, FromScript (names item)) : FromScript (items.flatMap names) := by
  intro binding member
  obtain ⟨item, found, named⟩ := List.mem_flatMap.1 member
  exact each item found binding named

theorem elim {α : Type} {names : α → List Binding} (each : ∀ item, FromScript (names item))
    (item : Option α) : FromScript (item.elim [] names) := by
  cases item with
  | none => exact nil
  | some item => exact each item

end FromScript

section Names

variable {category : Category}

theorem elementBindings_fromScript (known : category ∈ categories) (elements : List Element) :
    FromScript (elementBindings category elements) := by
  intro binding member
  obtain ⟨element, -, found⟩ := List.mem_filterMap.1 member
  obtain ⟨identifier, -, rfl⟩ := Option.map_eq_some_iff.1 found
  exact ⟨identifier, category, known, rfl⟩

mutual

theorem groupBindings_fromScript (known : category ∈ categories)
    (expr : Expr) : FromScript (expr.groupBindings category) := by
  cases expr with
  | object members =>
    rw [Expr.groupBindings]
    exact memberBindings_fromScript known members
  | call callee types arguments =>
    rw [Expr.groupBindings]
    exact argumentBindings_fromScript known arguments
  | wrapped wrapper inner =>
    rw [Expr.groupBindings]
    exact groupBindings_fromScript known inner
  | _ => exact .nil

theorem literalBindings_fromScript (known : category ∈ categories) (expr : Expr) :
    FromScript (expr.literalBindings category) := by
  cases expr with
  | object members =>
    rw [Expr.literalBindings]
    exact memberBindings_fromScript known members
  | array elements =>
    rw [Expr.literalBindings]
    exact elementBindings_fromScript known elements
  | wrapped wrapper inner =>
    rw [Expr.literalBindings]
    exact literalBindings_fromScript known inner
  | _ => exact .nil

theorem argumentBindings_fromScript (known : category ∈ categories) (arguments : List Element) :
    FromScript (argumentBindings category arguments) := by
  match arguments with
  | .value value :: _ =>
    rw [argumentBindings]
    exact literalBindings_fromScript known value
  | [] => exact .nil
  | .spread _ _ :: _ => exact .nil
  | .hole :: _ => exact .nil

theorem memberBindings_fromScript (known : category ∈ categories) (members : List Member) :
    FromScript (memberBindings category members) := by
  match members with
  | [] => exact .nil
  | .property key _ _ :: rest =>
    rw [memberBindings]
    exact (FromScript.map known _).append (memberBindings_fromScript known rest)
  | .spread argument _ :: rest =>
    rw [memberBindings]
    exact (groupBindings_fromScript known argument).append (memberBindings_fromScript known rest)

end

mutual

theorem patternBindings_fromScript (known : category ∈ categories) (pattern : Pattern) :
    FromScript (pattern.bindings category) := by
  cases pattern with
  | identifier identifier => exact .map known [identifier]
  | object members rest =>
    rw [Pattern.bindings]
    exact (patternMemberBindings_fromScript known members).append
      (restBindings_fromScript known rest)
  | array elements rest =>
    rw [Pattern.bindings]
    exact (patternElementBindings_fromScript known elements).append
      (restBindings_fromScript known rest)
  | withDefault pattern =>
    rw [Pattern.bindings]
    exact patternBindings_fromScript known pattern

theorem patternMemberBindings_fromScript (known : category ∈ categories)
    (members : List PatternMember) :
    FromScript (patternMemberBindings category members) := by
  match members with
  | [] => exact .nil
  | .property _ value _ :: rest =>
    rw [patternMemberBindings]
    exact (patternBindings_fromScript known value).append
      (patternMemberBindings_fromScript known rest)

theorem patternElementBindings_fromScript (known : category ∈ categories)
    (elements : List (Option Pattern)) :
    FromScript (patternElementBindings category elements) := by
  match elements with
  | [] => exact .nil
  | none :: rest =>
    rw [patternElementBindings]
    exact patternElementBindings_fromScript known rest
  | some pattern :: rest =>
    rw [patternElementBindings]
    exact (patternBindings_fromScript known pattern).append
      (patternElementBindings_fromScript known rest)

theorem restBindings_fromScript (known : category ∈ categories) (rest : Option Pattern) :
    FromScript (restBindings category rest) := by
  match rest with
  | none => exact .nil
  | some pattern =>
    rw [restBindings]
    exact patternBindings_fromScript known pattern

end

theorem typeBindings_fromScript (known : category ∈ categories)
    (type : TypeOutline) : FromScript (type.bindings category) := by
  cases type with
  | other => exact .nil
  | literal members =>
    refine FromScript.flatMap fun outline _ => ?_
    cases outline with
    | property key => exact .map known _
    | other => exact .nil

end Names

mutual

theorem definedProps_fromScript (expr : Expr) : FromScript expr.definedProps := by
  have prop : Category.prop ∈ categories := by decide
  unfold Expr.definedProps
  split
  next callee types arguments _ =>
    split
    · exact (FromScript.flatMap fun type _ => typeBindings_fromScript prop type).append
        (argumentBindings_fromScript prop arguments)
    · split
      · exact firstDefinedProps_fromScript arguments
      · exact .nil
  next inner _ => exact definedProps_fromScript inner
  next => exact .nil

theorem firstDefinedProps_fromScript (arguments : List Element) :
    FromScript (firstDefinedProps arguments) := by
  match arguments with
  | .value value :: _ =>
    rw [firstDefinedProps]
    exact definedProps_fromScript value
  | [] => exact .nil
  | .spread _ _ :: _ => exact .nil
  | .hole :: _ => exact .nil

end

/-- What a statement declares are names of scripts. -/
theorem setupBindings_fromScript (statement : Statement) : FromScript statement.setupBindings := by
  have setup : Category.setup ∈ categories := by decide
  unfold Statement.setupBindings
  split
  next declarators _ =>
    refine FromScript.flatMap fun declarator _ => ?_
    obtain ⟨pattern, initial, _⟩ := declarator
    exact (patternBindings_fromScript setup pattern).append
      (FromScript.elim definedProps_fromScript initial)
  next => exact .map setup _
  next => exact .map setup _
  next value _ => exact definedProps_fromScript value
  next => exact .nil

/-- What an option names are names of scripts. -/
theorem optionBindings_fromScript (name : String) (value : Expr) :
    FromScript (optionBindings name value) := by
  unfold optionBindings
  split
  · exact .elim (memberBindings_fromScript (by decide)) _
  · exact literalBindings_fromScript (by decide) value
  · exact .elim (memberBindings_fromScript (by decide)) _
  · exact .elim (memberBindings_fromScript (by decide)) _
  · exact groupBindings_fromScript (by decide) value
  · exact groupBindings_fromScript (by decide) value
  · exact .nil

/-- Every name of a script is that of an identifier. -/
theorem analyze_fromScript (reader : Reader) (language : Language) (setup : Bool)
    (text : List Char) : FromScript (analyze reader language setup text).bindings := by
  unfold analyze outlineBindings
  dsimp only
  split
  · exact FromScript.flatMap fun statement _ => setupBindings_fromScript statement
  · refine FromScript.elim (fun exported => ?_) _
    unfold DefaultExport.bindings
    split
    · refine FromScript.flatMap fun member _ => ?_
      unfold Member.optionBindings
      split
      · exact optionBindings_fromScript _ _
      · exact .nil
    · exact .nil

end SfcIndex.Script
