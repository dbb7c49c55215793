import SfcIndex.Text.Offset

/-! # Arguments of the command

Options may stand before or after what they do not belong to; each is given once at its level, as
`--name value` or `--name=value`. What follows `--` is never an option.
-/

namespace SfcIndex.Command

/-- How results are written. -/
inductive Format where
  | text
  | json
  deriving Repr, DecidableEq

/-- A place in a file, as a byte offset or as line and column counted from one. -/
inductive Place where
  | offset (offset : Nat)
  | position (line column : Nat)
  deriving Repr, DecidableEq

/-- What the command is asked to do. -/
inductive Task where
  | definition (file : String) (place : Place) (format : Format)
  | bindings (patterns : List String) (format : Format)
  | regions (file : String)
  deriving Repr, DecidableEq

/-- What the arguments ask for. -/
inductive Invocation where
  | version
  | help
  /-- The arguments cannot be understood. -/
  | misuse
  | run (config : Option String) (task : Task)
  deriving Repr, DecidableEq

/-! ### Values -/

/-- A number that can be an offset, perhaps with a sign. -/
def number? (text : String) : Option Nat := do
  let (negative, digits) := match text.toList with
    | '-' :: rest => (true, rest)
    | '+' :: rest => (false, rest)
    | all => (false, all)
  if digits.isEmpty || !digits.all Char.isDigit then none
  else
    let value := digits.foldl (fun value digit => 10 * value + (digit.toNat - '0'.toNat)) 0
    if value ≤ Offset.limit && !(negative && value ≠ 0) then some value else none

def format? : String → Option Format
  | "text" => some .text
  | "json" => some .json
  | _ => none

/-! ### Options -/

/-- What an option does. -/
inductive OptionKind where
  /-- It takes a value that passes a test. -/
  | value (accepts : String → Bool)
  | flag
  | showsVersion
  | showsHelp

/-- An option by its names. -/
structure OptionSpec where
  long : String
  short : Option Char
  kind : OptionKind

/-- An option that was given, with its value. -/
structure Given where
  long : String
  value : String
  deriving Repr, DecidableEq

/-- What an argument that looks like an option is. -/
inductive Taken where
  | misuse
  | version
  | help
  | given (option : Given) (rest : List String)

/-- Whether an argument looks like an option. -/
def looksLikeOption (argument : String) : Bool := argument.startsWith "-" && argument ≠ "-"

/-- An option with its value, which is attached to it or is the next argument. -/
def takeKind (spec : OptionSpec) (attached : Option String) (rest : List String) : Taken :=
  match spec.kind, attached, rest with
  | .showsVersion, none, _ => .version
  | .showsHelp, none, _ => .help
  | .flag, none, _ => .given ⟨spec.long, ""⟩ rest
  | .value accepts, some value, _ =>
    if accepts value then .given ⟨spec.long, value⟩ rest else .misuse
  | .value accepts, none, value :: rest =>
    if !looksLikeOption value && accepts value then .given ⟨spec.long, value⟩ rest else .misuse
  | _, _, _ => .misuse

/-- The name and the attached value of a long option. -/
def splitLong (body : List Char) : String × Option String :=
  match body.dropWhile (· ≠ '=') with
  | [] => (String.ofList body, none)
  | _ :: value => (String.ofList (body.takeWhile (· ≠ '=')), some (String.ofList value))

/-- The value attached to a short option. -/
def attachedValue : List Char → Option String
  | [] => none
  | '=' :: value => some (String.ofList value)
  | value => some (String.ofList value)

/-- What the first argument, which looks like an option, is. -/
def takeOption (specs : List OptionSpec) (argument : String) (rest : List String) : Taken :=
  match argument.toList with
  | '-' :: '-' :: body =>
    let (name, attached) := splitLong body
    match specs.find? (·.long = name) with
    | none => .misuse
    | some spec => takeKind spec attached rest
  | '-' :: letter :: body =>
    match specs.find? (·.short = some letter) with
    | none => .misuse
    | some spec =>
      match spec.kind with
      | .showsVersion => .version
      | .showsHelp => .help
      | _ => takeKind spec (attachedValue body) rest
  | _ => .misuse

/-- The arguments of one level. -/
structure Scanned where
  given : List Given := []
  positionals : List String := []
  deriving Repr, DecidableEq

/-- Why a scan ended early. -/
inductive Stopped where
  | misuse
  | version
  | help

namespace Scanned

/-- The value of an option. -/
def value? (scanned : Scanned) (long : String) : Option String :=
  (scanned.given.find? (·.long = long)).map Given.value

def has (scanned : Scanned) (long : String) : Bool := (scanned.value? long).isSome

def addGiven (scanned : Scanned) (option : Given) : Except Stopped Scanned :=
  if scanned.has option.long then .error .misuse
  else .ok { scanned with given := scanned.given ++ [option] }

def addPositional (scanned : Scanned) (argument : String) : Scanned :=
  { scanned with positionals := scanned.positionals ++ [argument] }

end Scanned

/-- Reads the arguments of a level. With `leading` it ends before the first that is no option.
What is left is returned; `fuel` bounds the number of arguments. -/
def scan (specs : List OptionSpec) (leading : Bool) :
    (fuel : Nat) → Scanned → List String → Except Stopped (Scanned × List String)
  | 0, _, _ => .error .misuse
  | _ + 1, scanned, [] => .ok (scanned, [])
  | fuel + 1, scanned, argument :: rest =>
    if argument = "--" then
      if leading then .error .misuse
      else .ok (rest.foldl Scanned.addPositional scanned, [])
    else if looksLikeOption argument then
      match takeOption specs argument rest with
      | .misuse => .error .misuse
      | .version => .error .version
      | .help => .error .help
      | .given option rest => do scan specs leading fuel (← scanned.addGiven option) rest
    else if leading then .ok (scanned, argument :: rest)
    else scan specs leading fuel (scanned.addPositional argument) rest

/-! ### The levels -/

def configOption : OptionSpec := ⟨"config", none, .value (· ≠ "")⟩

def formatOption : OptionSpec := ⟨"format", some 'f', .value fun text => (format? text).isSome⟩

/-- The options that every level has. -/
def commonOptions : List OptionSpec :=
  [configOption, ⟨"verbose", none, .flag⟩, ⟨"help", some 'h', .showsHelp⟩]

def topOptions : List OptionSpec := ⟨"version", some 'V', .showsVersion⟩ :: commonOptions

def numberOption (long : String) : OptionSpec :=
  ⟨long, none, .value fun text => (number? text).isSome⟩

def definitionOptions : List OptionSpec :=
  [numberOption "offset", numberOption "line", numberOption "column", formatOption] ++ commonOptions

/-- The format that is asked for; text if none is. -/
def Scanned.format (scanned : Scanned) : Format :=
  ((scanned.value? "format").bind format?).getD .text

/-- The place that is asked for: an offset, or a line with a column, and not both. -/
def Scanned.place? (scanned : Scanned) : Option Place :=
  let number? (long : String) : Option Nat := (scanned.value? long).bind number?
  match number? "offset", number? "line", number? "column" with
  | some offset, none, none => some (.offset offset)
  | none, some line, some column => some (.position line column)
  | _, _, _ => none

/-- The one file that is given. -/
def Scanned.file? (scanned : Scanned) : Option String :=
  match scanned.positionals with
  | [file] => if file = "" then none else some file
  | _ => none

/-- What is looked for if nothing is named. -/
def defaultPatterns : List String := ["./**/*.vue"]

/-- The options of a task by its name, and the task that its arguments describe. -/
def task? (name : String) : Option (List OptionSpec × (Scanned → Option Task)) :=
  match name with
  | "definition" => some (definitionOptions, fun scanned => do
      return .definition (← scanned.file?) (← scanned.place?) scanned.format)
  | "bindings" => some (formatOption :: commonOptions, fun scanned =>
      let patterns := if scanned.positionals.isEmpty then defaultPatterns else scanned.positionals
      some (.bindings patterns scanned.format))
  | "regions" => some (commonOptions, fun scanned => return .regions (← scanned.file?))
  | _ => none

/-- What an early end of a scan asks for. -/
def Stopped.invocation : Stopped → Invocation
  | misuse => .misuse
  | version => .version
  | help => .help

/-- The task that the arguments after the options of the top level describe. -/
def parseTask (top : Scanned) (arguments : List String) : Except Stopped Invocation := do
  match arguments with
  | [] => return .misuse
  | "help" :: _ => return .help
  | name :: arguments =>
    match task? name with
    | none => return .misuse
    | some (specs, build?) =>
      let (scanned, _) ← scan specs false (arguments.length + 1) {} arguments
      let config := (scanned.value? "config").orElse fun () => top.value? "config"
      return (build? scanned).elim .misuse (.run config)

/-- What the arguments ask for. -/
def parse (arguments : List String) : Invocation :=
  let result := do
    let (top, arguments) ← scan topOptions true (arguments.length + 1) {} arguments
    parseTask top arguments
  match result with
  | .ok invocation => invocation
  | .error stopped => stopped.invocation

end SfcIndex.Command
