import SfcIndex.Files.Path

/-! # Glob patterns

A pattern is cut at its slashes like a path. In a part, `?` stands for one character, `*` for any
number of them, and brackets for one out of a set; the part `**` stands for any number of
directories.
-/

namespace SfcIndex.Files

/-- Characters between brackets: one, or all from one to another. -/
inductive CharSet where
  | one (c : Char)
  | range (first last : Char)
  deriving Repr, DecidableEq

namespace CharSet

def contains (set : CharSet) (c : Char) : Bool :=
  match set with
  | one d => c = d
  | range first last => first ≤ c && c ≤ last

/-- The sets that the text between brackets lists. -/
def list : List Char → List CharSet
  | first :: '-' :: last :: rest => range first last :: list rest
  | c :: rest => one c :: list rest
  | [] => []

end CharSet

/-- What a pattern asks of the next characters of a name. -/
inductive Token where
  | char (c : Char)
  | anyChar
  | anyRun
  | oneOf (sets : List CharSet) (negated : Bool)
  deriving Repr, DecidableEq

namespace Token

/-- Whether one character is what a token asks for. -/
def accepts (token : Token) (c : Char) : Bool :=
  match token with
  | char d => c = d
  | anyChar => true
  | anyRun => true
  | oneOf sets negated => (sets.any fun set => set.contains c) != negated

/-- Whether tokens match a whole name. -/
def matchAll : List Token → List Char → Bool
  | [], [] => true
  | [], _ :: _ => false
  | anyRun :: tokens, [] => matchAll tokens []
  | anyRun :: tokens, c :: name => matchAll tokens (c :: name) || matchAll (anyRun :: tokens) name
  | _ :: _, [] => false
  | token :: tokens, c :: name => token.accepts c && matchAll tokens name
termination_by tokens name => tokens.length + name.length

end Token

/-- The text up to a closing bracket that is not the first character, and the text after it. -/
def bracketBody? : List Char → Option (List Char × List Char)
  | [] => none
  | first :: rest =>
    match rest.dropWhile (· ≠ ']') with
    | [] => none
    | _ :: later => some (first :: rest.takeWhile (· ≠ ']'), later)

/-- The set in brackets at the start of a text, after its opening bracket. -/
def bracketToken? (text : List Char) : Option (Token × List Char) :=
  match text with
  | '!' :: rest => (bracketBody? rest).map fun (body, later) => (.oneOf (CharSet.list body) true, later)
  | text => (bracketBody? text).map fun (body, later) => (.oneOf (CharSet.list body) false, later)

/-- The tokens of a part of a pattern. A bracket that is not closed, and more than one star in a
row, make it no pattern; `fuel` bounds the number of tokens. -/
def tokens? : (fuel : Nat) → List Char → Option (List Token)
  | 0, _ => none
  | _ + 1, [] => some []
  | _ + 1, '*' :: '*' :: _ => none
  | fuel + 1, '*' :: rest => (tokens? fuel rest).map (.anyRun :: ·)
  | fuel + 1, '?' :: rest => (tokens? fuel rest).map (.anyChar :: ·)
  | fuel + 1, '[' :: rest => do
    let (token, rest) ← bracketToken? rest
    return token :: (← tokens? fuel rest)
  | fuel + 1, c :: rest => (tokens? fuel rest).map (.char c :: ·)

/-- The character that a token asks for. -/
def Token.char? : Token → Option Char
  | .char c => some c
  | _ => none

/-- A part of a pattern between slashes. -/
inductive Segment where
  | directories
  | tokens (tokens : List Token)
  deriving Repr, DecidableEq

namespace Segment

/-- The segment that a piece of a pattern is. -/
def ofPiece? (piece : String) : Option Segment :=
  if piece = "**" then some directories
  else (tokens? (piece.length + 1) piece.toList).map tokens

/-- The one name that a segment without wildcards stands for. -/
def literal? : Segment → Option String
  | directories => none
  | tokens all => (all.mapM Token.char?).map String.ofList

/-- Whether a segment matches a name. -/
def accepts (segment : Segment) (name : String) : Bool :=
  match segment with
  | directories => true
  | tokens all => Token.matchAll all name.toList

/-- Whether a segment asks for a dot first. -/
def startsWithDot : Segment → Bool
  | tokens (.char '.' :: _) => true
  | _ => false

end Segment

/-- A pattern for paths. -/
structure Glob where
  /-- Where the search starts. -/
  start : String
  segments : List Segment
  /-- Whether only directories are looked for, as a slash at the end says. -/
  onlyDirectories : Bool
  deriving Repr, DecidableEq

namespace Glob

/-- The pattern that a text is. -/
def parse? (text : String) : Option Glob := do
  let absolute := text.startsWith "/"
  let all := if absolute then (pieces text).drop 1 else pieces text
  let onlyDirectories := all.getLast? = some ""
  let named := if onlyDirectories then all.dropLast else all
  return {
    start := if absolute then "/" else "."
    segments := ← named.mapM Segment.ofPiece?
    onlyDirectories }

end Glob

end SfcIndex.Files
