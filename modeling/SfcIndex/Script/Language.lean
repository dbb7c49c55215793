import SfcIndex.Text.Ascii

/-! # The language of a script -/

namespace SfcIndex.Script

/-- Which extensions of JavaScript a script may use. -/
structure Language where
  /-- Types and the declarations around them. -/
  typed : Bool
  /-- Elements as expressions. -/
  jsx : Bool
  deriving Repr, DecidableEq

namespace Language

/-- The language that a `lang` attribute names, ignoring ASCII case. Without one, and for a word it
does not know, a script may use every extension. -/
def ofName (name : Option String) : Language :=
  match name.map fun word => String.ofList (Text.asciiFold word.toList) with
  | some "ts" => ⟨true, false⟩
  | some "js" => ⟨false, false⟩
  | some "jsx" => ⟨false, true⟩
  | _ => ⟨true, true⟩

end Language

end SfcIndex.Script
