import SfcIndex.Text.Span

/-! # Bindings

A binding is a name that a file defines, with the place to jump to. A loop or slot variable is seen
only from inside the element that declares it; every other name is seen from everywhere.
-/

namespace SfcIndex

/-- The kinds of declaration that introduce a name. -/
inductive Category where
  | component
  | setup
  | prop
  | data
  | computed
  | method
  | ref
  | vForScope
  | slotScope
  | styleClass
  | styleId
  deriving Repr, DecidableEq

namespace Category

/-- All categories. -/
def all : List Category :=
  [component, setup, prop, data, computed, method, ref, vForScope, slotScope, styleClass, styleId]

/-- The word for a category. -/
def label : Category → String
  | component => "component"
  | setup => "setup"
  | prop => "prop"
  | data => "data"
  | computed => "computed"
  | method => "method"
  | ref => "ref"
  | vForScope => "v-for-scope"
  | slotScope => "slot-scope"
  | styleClass => "style-class"
  | styleId => "style-id"

/-- The category with the given word. -/
def ofLabel? (word : String) : Option Category := all.find? fun category => category.label = word

/-- Whether names of a category are seen only inside the element that declares them. -/
def isScoped : Category → Bool
  | vForScope => true
  | slotScope => true
  | _ => false

end Category

/-- A name, the kind of its declaration and the offset to jump to. -/
structure Binding where
  name : String
  category : Category
  position : Nat
  scope : Option Span := none
  deriving Repr, DecidableEq

namespace Binding

/-- The binding of a region's text, rebased to the file that holds the region at `base`. -/
def shift (binding : Binding) (base : Nat) : Except OffsetError Binding := do
  let position ← Offset.add binding.position base
  let scope ← binding.scope.mapM fun span => span.shift base
  return { binding with position, scope }

/-- Whether a reference at `target` can mean this binding. -/
def isVisibleFrom (binding : Binding) (target : Span) : Bool :=
  !binding.category.isScoped || binding.scope.all fun span => span.contains target

end Binding

end SfcIndex
