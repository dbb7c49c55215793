import SfcIndex.Json.Value

/-! # Writing JSON

Values are written with one member or element a line, two blanks further in than what holds them.
-/

namespace SfcIndex.Json

/-- A character below the space by the value of its two lowest hexadecimal digits. -/
def unitEscape (c : Char) : List Char :=
  let digit (value : Nat) : Char := (Nat.digitChar value)
  ['\\', 'u', '0', '0', digit (c.toNat / 16), digit (c.toNat % 16)]

/-- A character as it is written inside a text. -/
def escape (c : Char) : List Char :=
  match c with
  | '"' => ['\\', '"']
  | '\\' => ['\\', '\\']
  | '\x08' => ['\\', 'b']
  | '\x0c' => ['\\', 'f']
  | '\n' => ['\\', 'n']
  | '\r' => ['\\', 'r']
  | '\t' => ['\\', 't']
  | c => if c.toNat < 0x20 then unitEscape c else [c]

/-- A text in its quotes. -/
def quote (value : String) : String :=
  "\"" ++ String.ofList (value.toList.flatMap escape) ++ "\""

/-- The start of a line at a level of nesting. -/
def lineStart (level : Nat) : String := "\n" ++ String.ofList (List.replicate (2 * level) ' ')

/-- Written items between brackets. -/
def bracket (level : Nat) (opening closing : String) (items : List String) : String :=
  if items.isEmpty then opening ++ closing
  else
    opening ++ ",".intercalate (items.map (lineStart (level + 1) ++ ·)) ++ lineStart level ++ closing

mutual

/-- A value as it is written at a level of nesting. -/
def renderAt (level : Nat) : Json → String
  | .null => "null"
  | .bool value => if value then "true" else "false"
  | .number literal => literal
  | .string value => quote (value.getD "")
  | .array elements => bracket level "[" "]" (renderElements (level + 1) elements)
  | .object members => bracket level "\x7b" "\x7d" (renderMembers (level + 1) members)

/-- The elements of an array as they are written. -/
def renderElements (level : Nat) : List Json → List String
  | [] => []
  | element :: rest => renderAt level element :: renderElements level rest

/-- The members of an object as they are written. -/
def renderMembers (level : Nat) : List (Option String × Json) → List String
  | [] => []
  | (key, value) :: rest =>
    (quote (key.getD "") ++ ": " ++ renderAt level value) :: renderMembers level rest

end

/-- A value as it is written. -/
def render (value : Json) : String := renderAt 0 value

end SfcIndex.Json
