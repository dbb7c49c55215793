/-! # Characters and the bytes they take

A text is a list of characters; positions in it are counted in bytes. A byte position is a
character boundary exactly when `Text.splitAt?` can split the text there.
-/

namespace SfcIndex.Text

/-- The number of bytes a text takes in UTF-8. -/
def width : List Char → Nat
  | [] => 0
  | c :: rest => c.utf8Size + width rest

@[simp] theorem width_nil : width [] = 0 := rfl

@[simp] theorem width_cons (c : Char) (rest : List Char) :
    width (c :: rest) = c.utf8Size + width rest := rfl

@[simp] theorem width_append (left right : List Char) :
    width (left ++ right) = width left + width right := by
  induction left with
  | nil => simp
  | cons c rest ih => simp [ih, Nat.add_assoc]

/-- The text before and after a byte position; nothing when the position lies inside a character
or past the end. -/
def splitAt? : Nat → List Char → Option (List Char × List Char)
  | 0, text => some ([], text)
  | _ + 1, [] => none
  | bytes + 1, c :: rest =>
    if c.utf8Size ≤ bytes + 1 then
      (splitAt? (bytes + 1 - c.utf8Size) rest).map fun (before, after) => (c :: before, after)
    else none

/-- The characters that start before a byte position. -/
def startingBefore : Nat → List Char → List Char
  | 0, _ => []
  | _ + 1, [] => []
  | bytes + 1, c :: rest => c :: startingBefore (bytes + 1 - c.utf8Size) rest

end SfcIndex.Text
