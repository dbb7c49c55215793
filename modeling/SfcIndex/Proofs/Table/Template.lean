import SfcIndex.Proofs.Markup.Move
import SfcIndex.Proofs.Markup.Openings
import SfcIndex.Proofs.Template.Aliases

/-! # Names of templates without a limit on offsets

`Template.names` collects the names of a template with offsets of any size. Names stand inside the
values that declare them, so in a text that ends below the limit checked collecting gives the same
(`Template.bindings_eq_ok`). In a moved template the names are moved (`Template.names_move`).
-/

namespace SfcIndex

open Text Markup

/-- The binding as many bytes later. -/
def Binding.move (bytes : Nat) (binding : Binding) : Binding :=
  { binding with
    position := binding.position + bytes
    scope := binding.scope.map (·.move bytes) }

/-- Moving a binding twice is moving it by the sum. -/
theorem Binding.move_move (first second : Nat) (binding : Binding) :
    (binding.move first).move second = binding.move (first + second) := by
  obtain ⟨name, category, position, scope⟩ := binding
  cases scope <;> simp [Binding.move, Span.move, Nat.add_assoc]

/-- Whether the offsets of a binding stay below a limit. -/
def Binding.Below (limit : Nat) (binding : Binding) : Prop :=
  binding.position ≤ limit ∧ ∀ scope ∈ binding.scope, scope.start ≤ limit ∧ scope.stop ≤ limit

instance (limit : Nat) (binding : Binding) : Decidable (binding.Below limit) :=
  inferInstanceAs (Decidable (_ ∧ ∀ scope ∈ binding.scope, _))

theorem Binding.Below.mono {limit limit' : Nat} {binding : Binding} (below : binding.Below limit)
    (larger : limit ≤ limit') : binding.Below limit' := by
  refine ⟨Nat.le_trans below.1 larger, fun scope is => ?_⟩
  obtain ⟨start, stop⟩ := below.2 scope is
  exact ⟨Nat.le_trans start larger, Nat.le_trans stop larger⟩

namespace Template

/-- An identifier ends inside its text. -/
theorem stop_le_of_mem_identifiers {text : List Char} {place : Nat × List Char}
    (member : place ∈ identifiers text) : place.1 + width place.2 ≤ width text :=
  (mem_identifiers_iff.1 member).1.standsAt.stop_le

/-- Bindings for the identifiers of a text at a byte of any number. -/
def scopedNames (text : List Char) (base : Nat) (category : Category) (scope : Span) :
    List Binding :=
  (identifiers text).map fun place =>
    { name := String.ofList place.2, category, position := base + place.1, scope := some scope }

/-- The names that an attribute of an element with the given span declares. -/
def attributeNames (scope : Span) (declaration : Attribute) : List Binding :=
  match declaration.value with
  | none => []
  | some value =>
    if declaration.key = "ref" then
      if value.text.isEmpty then []
      else [{ name := value.text, category := .ref, position := value.span.start }]
    else if declaration.key = "v-for" then
      let aliases := loopAliases value.text.toList
      scopedNames aliases.2 (value.span.start + aliases.1) .vForScope scope
    else if isSlotKey declaration.key then
      scopedNames value.text.toList value.span.start .slotScope scope
    else []

def elementNames (element : Region) : List Binding :=
  element.attributes.flatMap (attributeNames element.span)

/-- The names of a template and all elements in it, in document order. -/
def names (template : Region) : List Binding := template.descendants.flatMap elementNames

section Checked

variable {scope : Span} {declaration : Attribute} {limit : Nat}

/-- The names of a text that ends at an offset are given. -/
theorem scopedBindings_eq_ok {text : List Char} {base : Nat} (category : Category) (scope : Span)
    (below : base + width text ≤ Offset.limit) :
    scopedBindings text base category scope = .ok (scopedNames text base category scope) := by
  have each : ∀ place ∈ identifiers text,
      Offset.Gives (Offset.add base place.1 >>= fun position =>
        pure { name := String.ofList place.2, category, position, scope := some scope : Binding })
        (base + place.1 ≤ Offset.limit)
        { name := String.ofList place.2, category, position := base + place.1,
          scope := some scope } :=
    fun place _ => (Offset.gives_add base place.1).map _
  refine (Offset.Gives.mapM each).eq_ok ?_
  intro place member
  have := stop_le_of_mem_identifiers member
  omega

/-- Checked collecting gives the names of an attribute whose value ends below the limit. -/
theorem attributeBindings_eq_ok (scope : Span)
    (below : ∀ value, declaration.value = some value →
      value.span.start + width value.text.toList ≤ Offset.limit) :
    attributeBindings scope declaration = .ok (attributeNames scope declaration) := by
  unfold attributeBindings attributeNames
  cases is : declaration.value with
  | none => rfl
  | some value =>
    have within := below value is
    dsimp only
    split
    next =>
      split
      next => rfl
      next => rfl
    next =>
      split
      next =>
        have size := (loopAliases_standsAt value.text.toList).stop_le
        have base : Offset.add value.span.start (loopAliases value.text.toList).1 =
            .ok (value.span.start + (loopAliases value.text.toList).1) :=
          Offset.add_eq_ok (by omega)
        rw [base]
        exact scopedBindings_eq_ok _ _ (by omega)
      next =>
        split
        next => exact scopedBindings_eq_ok _ _ within
        next => rfl

/-- Checked collecting gives the names of a template in which all values end below the limit. -/
theorem bindings_eq_ok_of_values {template : Region}
    (below : ∀ element ∈ template.descendants, ∀ declaration ∈ element.attributes, ∀ value,
      declaration.value = some value →
        value.span.start + width value.text.toList ≤ Offset.limit) :
    bindings template = .ok (names template) := by
  have each : ∀ element ∈ template.descendants,
      elementBindings element = .ok (elementNames element) := by
    intro element member
    have attributes : element.attributes.mapM (attributeBindings element.span) =
        .ok (element.attributes.map (attributeNames element.span)) :=
      Offset.mapM_eq_ok fun declaration carries =>
        attributeBindings_eq_ok _ (below element member declaration carries)
    rw [elementBindings, attributes, elementNames, List.flatMap_def]
    rfl
  rw [bindings, Offset.mapM_eq_ok each, names, List.flatMap_def]
  rfl

theorem scopedBindings_only (text : List Char) (base : Nat) (category : Category) (scope : Span) :
    Offset.Only (scopedBindings text base category scope) (scopedNames text base category scope) :=
  Offset.Only.mapM fun place _ => (Offset.gives_add base place.1).only.map _

/-- Checked collecting gives the names of an attribute or fails. -/
theorem attributeBindings_only (scope : Span) (declaration : Attribute) :
    Offset.Only (attributeBindings scope declaration) (attributeNames scope declaration) := by
  unfold attributeBindings attributeNames
  cases declaration.value with
  | none => exact .ok []
  | some value =>
    dsimp only
    split
    next =>
      split
      next => exact .ok []
      next => exact .ok _
    next =>
      split
      next =>
        exact (Offset.gives_add value.span.start (loopAliases value.text.toList).1).only.bind
          (scopedBindings_only _ _ _ _)
      next =>
        split
        next => exact scopedBindings_only _ _ _ _
        next => exact .ok []

/-- If the names of a template are given, they are these. -/
theorem bindings_only (template : Region) :
    Offset.Only (bindings template) (names template) := by
  have each : ∀ element ∈ template.descendants,
      Offset.Only (elementBindings element) (elementNames element) := by
    intro element _
    have attributes := Offset.Only.mapM fun declaration (_ : declaration ∈ element.attributes) =>
      attributeBindings_only element.span declaration
    rw [elementNames, List.flatMap_def]
    exact attributes.map _
  rw [names, List.flatMap_def]
  exact (Offset.Only.mapM each).map _

/-- The names of a text and their scope lie below a limit when the text does. -/
theorem below_of_mem_scopedNames {text : List Char} {base : Nat} {category : Category}
    {binding : Binding} (member : binding ∈ scopedNames text base category scope)
    (below : base + width text ≤ limit) (inside : scope.start ≤ limit ∧ scope.stop ≤ limit) :
    binding.Below limit := by
  obtain ⟨place, found, rfl⟩ := List.mem_map.1 member
  have := stop_le_of_mem_identifiers found
  refine ⟨by dsimp only; omega, ?_⟩
  intro span is
  cases is
  exact inside

/-- The names of an attribute lie below a limit when its value does. -/
theorem below_of_mem_attributeNames {binding : Binding}
    (member : binding ∈ attributeNames scope declaration)
    (below : ∀ value, declaration.value = some value →
      value.span.start + width value.text.toList ≤ limit)
    (inside : scope.start ≤ limit ∧ scope.stop ≤ limit) : binding.Below limit := by
  unfold attributeNames at member
  cases is : declaration.value with
  | none => simp [is] at member
  | some value =>
    have within := below value is
    have size := (loopAliases_standsAt value.text.toList).stop_le
    rw [is] at member
    dsimp only at member
    split at member
    next =>
      split at member
      next => simp at member
      next =>
        rw [List.mem_singleton.1 member]
        refine ⟨by dsimp only; omega, ?_⟩
        intro span none
        cases none
    next =>
      split at member
      next => exact below_of_mem_scopedNames member (by omega) inside
      next =>
        split at member
        next => exact below_of_mem_scopedNames member within inside
        next => simp at member

end Checked

section Text

variable {rawTags : List String} {text : List Char} {template : Region}

/-- What is below a region at the top of a text is below the top. -/
theorem mem_descendants_of_mem {element : Region}
    (member : template ∈ (Region.tree rawTags text).children)
    (below : element ∈ template.descendants) :
    element ∈ (Region.tree rawTags text).children.flatMap Region.descendants :=
  List.mem_flatMap.2 ⟨template, member, below⟩

/-- Checked collecting gives the names of a template in a text that ends below the limit. -/
theorem bindings_eq_ok (fits : width text ≤ Offset.limit)
    (member : template ∈ (Region.tree rawTags text).children) :
    bindings template = .ok (names template) := by
  apply bindings_eq_ok_of_values
  intro element below declaration carries value is
  have known := mem_descendants_of_mem member below
  exact Nat.le_trans (Region.value_bounds known carries is) fits

/-- The names of a template lie inside the text. -/
theorem below_of_mem_names (member : template ∈ (Region.tree rawTags text).children)
    {binding : Binding} (named : binding ∈ names template) : binding.Below (width text) := by
  obtain ⟨element, below, declared⟩ := List.mem_flatMap.1 named
  obtain ⟨declaration, carries, introduced⟩ := List.mem_flatMap.1 declared
  have known := mem_descendants_of_mem member below
  refine below_of_mem_attributeNames introduced ?_ (Region.span_bounds known)
  intro value is
  exact Region.value_bounds known carries is

end Text

/-- The names of a text that stands further back stand further back. -/
theorem scopedNames_move (bytes : Nat) (text : List Char) (base : Nat) (category : Category)
    (scope : Span) :
    scopedNames text (base + bytes) category (scope.move bytes) =
      (scopedNames text base category scope).map (·.move bytes) := by
  unfold scopedNames
  rw [List.map_map]
  congr 1
  funext place
  simp only [Function.comp, Binding.move, Option.map_some, Nat.add_right_comm _ bytes]

/-- The names of an attribute that stands further back stand further back. -/
theorem attributeNames_move (bytes : Nat) (scope : Span) (declaration : Attribute) :
    attributeNames (scope.move bytes) (declaration.move bytes) =
      (attributeNames scope declaration).map (·.move bytes) := by
  unfold attributeNames Attribute.move
  cases declaration.value with
  | none => rfl
  | some value =>
    dsimp only [Option.map_some]
    split
    next =>
      split
      next => rfl
      next => rfl
    next =>
      split
      next =>
        rw [← scopedNames_move, Nat.add_right_comm]
        rfl
      next =>
        split
        next => exact scopedNames_move bytes _ _ _ _
        next => rfl

/-- The names of a moved template are moved. -/
theorem names_move (bytes ids : Nat) (template : Region) :
    names (template.move bytes ids) = (names template).map (·.move bytes) := by
  have each : ∀ element, elementNames (Region.move bytes ids element) =
      (elementNames element).map (·.move bytes) := by
    intro element
    rw [elementNames, elementNames, Region.attributes_move, Region.span_move, List.flatMap_map,
      List.map_flatMap]
    congr 1
    funext declaration
    exact attributeNames_move bytes element.span declaration
  rw [names, names, Region.descendants_move, List.flatMap_map, List.map_flatMap]
  congr 1
  funext element
  exact each element

end Template

end SfcIndex
