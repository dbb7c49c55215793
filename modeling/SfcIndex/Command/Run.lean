import SfcIndex.Command.Arguments
import SfcIndex.Command.Report
import SfcIndex.Config
import SfcIndex.Files.Collect
import SfcIndex.Files.Disk
import SfcIndex.Text.Quoted

/-! # Running the command

The command finds files with a finder, reads them through a disk and scripts with a reader, and
answers with what it prints and its status.
-/

namespace SfcIndex.Command

open Text Markup

/-- Why the command fails. -/
inductive Failure where
  | read (path : String) (cause : Files.ReadError)
  | config (path : String)
  | noPosition (path : String) (line column : Nat)
  | pastEnd (path : String) (offset length : Nat)
  | noFiles (patterns : List String)
  | overflow (cause : OffsetError)
  deriving Repr, DecidableEq

def Failure.message : Failure → String
  | read path cause => s!"failed to read {path}: {cause.message}"
  | config path => s!"failed to parse {path}: not a configuration"
  | noPosition path line column => s!"{line}:{column} is not a position in {path}"
  | pastEnd path offset length =>
    s!"offset {offset} is past the end of {path} ({length} bytes)"
  | noFiles patterns => s!"no supported files found matching patterns: {quotedList patterns}"
  | overflow cause => cause.message

/-- What the command prints and the status it ends with. -/
structure Outcome where
  status : Nat
  output : String
  /-- The lines that are printed apart from the results. -/
  notes : List String
  deriving Repr, DecidableEq

/-- A note in front of which a coloured word stands. -/
def coloured (colour : Nat) (word message : String) : String :=
  s!"\x1b[{colour}m{word}:\x1b[0m {message}"

def warningNote (message : String) : String := coloured 33 "Warning" message

def errorNote (message : String) : String := coloured 31 "Error" message

/-- Results with the notes that come with them. -/
structure Printed where
  output : String := ""
  notes : List String := []

/-- The outcome of a task after earlier notes. -/
def outcome (earlier : List String) : Except Failure Printed → Outcome
  | .ok printed => ⟨0, printed.output, earlier ++ printed.notes⟩
  | .error failure => ⟨1, "", earlier ++ [errorNote failure.message]⟩

section Tasks

variable {m : Type → Type} [Monad m] (reader : Script.Reader)

/-! ### The configuration -/

/-- The options that a configuration file describes. -/
def readConfig (disk : Files.Disk m) (path : String) : m (Except Failure Options) := do
  match ← disk.readText path with
  | .error cause => return .error (.read path cause)
  | .ok text => return (Config.read? text.toList).elim (.error (.config path)) .ok

/-- The options to work with. A file that is asked for must be there and be right; without one the
usual file counts if it is there, and its faults are only noted. -/
def loadConfig (disk : Files.Disk m) (asked : Option String) :
    m (Except Failure (Options × List String)) := do
  match asked with
  | some path => return (← readConfig disk path).map fun options => (options, [])
  | none =>
    if (← disk.kind? Config.fileName).isNone then return .ok ({}, [])
    match ← readConfig disk Config.fileName with
    | .ok options => return .ok (options, [])
    | .error failure => return .ok ({}, [warningNote failure.message])

/-! ### Tasks -/

/-- The offset of a place in a file. -/
def placeOffset (file : String) (text : List Char) : Place → Except Failure Nat
  | .offset offset =>
    if offset ≤ width text then .ok offset else .error (.pastEnd file offset (width text))
  | .position line column =>
    if line = 0 || column = 0 then .error (.noPosition file line column)
    else
      (offset? text ⟨line - 1, column - 1⟩).elim (.error (.noPosition file line column)) .ok

/-- An offset that does not fit is a failure of the command. -/
def checkedTable (table : Except OffsetError Table) : Except Failure Table :=
  table.mapError .overflow

/-- The definitions of the word at a place. -/
def definitionTask (options : Options) (file : String) (place : Place) (format : Format)
    (text : List Char) : Except Failure Printed := do
  let offset ← placeOffset file text place
  let table ← checkedTable (Table.buildAt reader options file text)
  let warnings := table.warnings.map fun warning => warningNote warning.message
  let found := table.definitionAt? text offset
  let locations := found.elim [] Definition.locations
  match format with
  | .json =>
    return { output := (definitionJson file text found).render ++ "\n", notes := warnings }
  | .text =>
    let missing := if locations.isEmpty then [notFoundMessage offset found] else []
    return {
      output := String.join (locations.map (locationLine file text))
      notes := warnings ++ missing }

/-- A file with its text and its table. -/
structure Indexed where
  file : String
  text : List Char
  table : Table

/-- The tables of files, and notes about those that cannot be read. -/
def indexFiles (disk : Files.Disk m) (options : Options) :
    List String → m (Except Failure (List Indexed × List String))
  | [] => return .ok ([], [])
  | file :: rest => do
    let here ← disk.readText file
    let later ← indexFiles disk options rest
    return do
      let (indexed, notes) ← later
      match here with
      | .error cause => return (indexed, (Failure.read file cause).message :: notes)
      | .ok text =>
        let table ← checkedTable (Table.buildAt reader options file text.toList)
        return (⟨file, text.toList, table⟩ :: indexed, notes)

/-- Whether a file that a search finds is indexed. -/
def isCandidate (options : Options) (path : String) : Bool :=
  options.supports path && !Files.passes "node_modules" path

/-- The tables of files in a format; as text, with the warnings about them. -/
def printTables (format : Format) (indexed : List Indexed) (notes : List String) : Printed :=
  match format with
  | .json =>
    let tables := indexed.map fun entry => tableJson entry.file entry.text entry.table
    { output := (Json.array tables).render ++ "\n", notes }
  | .text =>
    let warnings := indexed.flatMap fun entry =>
      entry.table.warnings.map fun warning => warningNote warning.message
    { output := String.join (indexed.map fun entry => tableText entry.file entry.text entry.table)
      notes := notes ++ warnings }

/-- The tables of all files that patterns find. -/
def bindingsTask (finder : Files.Finder m) (disk : Files.Disk m) (options : Options)
    (patterns : List String) (format : Format) : m (Except Failure Printed) := do
  let files ← Files.collect finder (isCandidate options) patterns
  if files.isEmpty then return .error (.noFiles patterns)
  let indexed ← indexFiles reader disk options files
  return indexed.map fun (found, notes) => printTables format found notes

/-- The regions of a file. -/
def regionsTask (options : Options) (text : List Char) : Except Failure Printed := do
  let document ← (Region.parse options.rawTags text).mapError .overflow
  return { output := regionsText document }

/-- Goes on with the text of a file. -/
def withText (disk : Files.Disk m) (file : String)
    (next : List Char → Except Failure Printed) : m (Except Failure Printed) := do
  match ← disk.readText file with
  | .error cause => return .error (.read file cause)
  | .ok text => return next text.toList

def runTask (finder : Files.Finder m) (disk : Files.Disk m) (options : Options) :
    Task → m (Except Failure Printed)
  | .definition file place format =>
    withText disk file (definitionTask reader options file place format)
  | .bindings patterns format => bindingsTask reader finder disk options patterns format
  | .regions file => withText disk file (regionsTask options)

def versionText : String := "vellum 0.42.0\n"

def helpText : String :=
  "Go-to-definition for Vue single-file components\n\n" ++
    "Usage: vellum [--config <path>] [--verbose] <command>\n\n" ++
    "Commands:\n" ++
    "  definition <file> (--offset <n> | --line <n> --column <n>) [-f text|json]\n" ++
    "  bindings [patterns] [-f text|json]\n" ++
    "  regions <file>\n"

/-- Runs the command with its arguments. -/
def run (finder : Files.Finder m) (disk : Files.Disk m) (arguments : List String) :
    m Outcome := do
  match parse arguments with
  | .version => return ⟨0, versionText, []⟩
  | .help => return ⟨0, helpText, []⟩
  | .misuse => return ⟨2, "", []⟩
  | .run config task =>
    match ← loadConfig disk config with
    | .error failure => return outcome [] (.error failure)
    | .ok (options, notes) => return outcome notes (← runTask reader finder disk options task)

end Tasks

end SfcIndex.Command
