import SfcIndex.Files.Glob

/-! # Files that are left out

A file `.ignore` in a directory lists, one pattern a line, what a walk leaves out of that directory
and those below; `.gitignore` does the same inside a repository. The last line that matches
decides, and one that starts with `!` lets a file in again.
-/

namespace SfcIndex.Files

/-- One line of a file that lists what is left out. -/
structure IgnoreRule where
  segments : List Segment
  /-- Whether it lets files in again. -/
  admits : Bool
  onlyDirectories : Bool
  deriving Repr, DecidableEq

namespace IgnoreRule

/-- The set in brackets, where `^` also negates. -/
def bracket? : List Char → Option (Token × List Char)
  | '^' :: rest => bracketToken? ('!' :: rest)
  | text => bracketToken? text

/-- The tokens of a piece of a line. A backslash takes the next character as it is; `fuel` bounds
the number of tokens. -/
def pieceTokens? : (fuel : Nat) → List Char → Option (List Token)
  | 0, _ => none
  | _ + 1, [] => some []
  | fuel + 1, '\\' :: c :: rest => (pieceTokens? fuel rest).map (.char c :: ·)
  | fuel + 1, '*' :: rest => (pieceTokens? fuel rest).map (.anyRun :: ·)
  | fuel + 1, '?' :: rest => (pieceTokens? fuel rest).map (.anyChar :: ·)
  | fuel + 1, '[' :: rest => do
    let (token, rest) ← bracket? rest
    return token :: (← pieceTokens? fuel rest)
  | fuel + 1, c :: rest => (pieceTokens? fuel rest).map (.char c :: ·)

def segment? (piece : String) : Option Segment :=
  if piece = "**" then some .directories
  else (pieceTokens? (piece.length + 1) piece.toList).map .tokens

/-- A line without the blanks at its end, unless the last is escaped. -/
def trimmed (line : List Char) : List Char :=
  if line.reverse.take 2 = [' ', '\\'] then line
  else (line.reverse.dropWhile Char.isWhitespace).reverse

/-- The segments of a line. One without a slash before its end matches at any depth, and `**` at
the end what is inside. -/
def segments? (anchored : Bool) (body : List Char) : Option (List Segment) := do
  let found ← (pieces (String.ofList body)).mapM segment?
  let found := if anchored || body.contains '/' then found else .directories :: found
  return if found.getLast? = some .directories then found ++ [.tokens [.anyRun]] else found

/-- The rule of a line; empty lines and lines that start with `#` have none. -/
def ofLine? (line : List Char) : Option IgnoreRule := do
  let line := trimmed line
  if line.isEmpty || line.head? = some '#' then none
  else
    let (admits, line) := match line with
      | '!' :: rest => (true, rest)
      | '\\' :: '!' :: rest => (false, '!' :: rest)
      | '\\' :: '#' :: rest => (false, '#' :: rest)
      | line => (false, line)
    let (anchored, line) := match line with
      | '/' :: rest => (true, rest)
      | line => (false, line)
    let onlyDirectories := line.getLast? = some '/'
    let body := if onlyDirectories then line.dropLast else line
    return { segments := ← segments? anchored body, admits, onlyDirectories }

end IgnoreRule

/-- Whether segments match the names of a path. -/
def matchPath : List Segment → List String → Bool
  | [], [] => true
  | [], _ :: _ => false
  | .directories :: segments, [] => matchPath segments []
  | .directories :: segments, name :: path =>
    matchPath segments (name :: path) || matchPath (.directories :: segments) path
  | .tokens _ :: _, [] => false
  | .tokens all :: segments, name :: path =>
    Token.matchAll all name.toList && matchPath segments path
termination_by segments path => segments.length + path.length

/-- What a list of rules says about a path. -/
inductive Verdict where
  | silent
  | leftOut
  | admitted
  deriving Repr, DecidableEq

namespace Verdict

/-- The first word that is said. -/
def orElse : Verdict → Verdict → Verdict
  | silent, other => other
  | said, _ => said

end Verdict

/-- The rules that a text lists. -/
def ignoreRules (text : String) : List IgnoreRule :=
  (text.splitOn "\n").filterMap fun line =>
    IgnoreRule.ofLine? (if line.endsWith "\r" then line.toList.dropLast else line.toList)

/-- What rules say about a path below the directory that they stand in. -/
def verdict (rules : List IgnoreRule) (path : List String) (isDirectory : Bool) : Verdict :=
  let decisive := rules.reverse.find? fun rule =>
    matchPath rule.segments path && (!rule.onlyDirectories || isDirectory)
  match decisive with
  | none => .silent
  | some rule => if rule.admits then .admitted else .leftOut

/-- The rules of a directory. -/
structure IgnoreLevel where
  /-- The names on the way to the directory. -/
  base : List String
  rules : List IgnoreRule
  repositoryRules : List IgnoreRule
  /-- Whether the directory is the top of a repository. -/
  isRepository : Bool

namespace IgnoreLevel

/-- What a level's rules say about a path that is given from the top. -/
def judge (level : IgnoreLevel) (rules : List IgnoreRule) (path : List String)
    (isDirectory : Bool) : Verdict :=
  verdict rules (path.drop level.base.length) isDirectory

/-- The levels up to the top of the repository, the nearest first. -/
def upToRepository : List IgnoreLevel → List IgnoreLevel
  | [] => []
  | level :: rest => if level.isRepository then [level] else level :: upToRepository rest

/-- What all levels say, the nearest first. -/
def judgeAll (levels : List IgnoreLevel) (path : List String) (isDirectory : Bool) : Verdict :=
  let own := levels.foldr
    (fun level said => (level.judge level.rules path isDirectory).orElse said) Verdict.silent
  let repository :=
    if levels.any (·.isRepository) then
      (upToRepository levels).foldr
        (fun level said => (level.judge level.repositoryRules path isDirectory).orElse said)
        Verdict.silent
    else .silent
  own.orElse repository

/-- Whether a walk passes over an entry: rules leave it out, or it is hidden and no rule admits
it. -/
def passesOver (levels : List IgnoreLevel) (path : List String) (name : String)
    (isDirectory : Bool) : Bool :=
  match judgeAll levels path isDirectory with
  | .leftOut => true
  | .admitted => false
  | .silent => name.startsWith "."

end IgnoreLevel

end SfcIndex.Files
