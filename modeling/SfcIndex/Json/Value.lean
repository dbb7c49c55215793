/-! # JSON values -/

namespace SfcIndex

/-- A JSON value. The members of an object are kept in order, repeated keys included. -/
inductive Json where
  | null
  | bool (value : Bool)
  /-- A number as it is written. -/
  | number (literal : String)
  /-- A text; one with half of a surrogate pair has no characters. -/
  | string (value : Option String)
  | array (elements : List Json)
  | object (members : List (Option String × Json))
  deriving Repr, Inhabited

namespace Json

/-- The number of a natural number. -/
def ofNat (value : Nat) : Json := .number (toString value)

def ofString (value : String) : Json := .string (some value)

/-- An object with the given keys. -/
def ofFields (fields : List (String × Json)) : Json :=
  .object (fields.map fun (key, value) => (some key, value))

end Json

end SfcIndex
