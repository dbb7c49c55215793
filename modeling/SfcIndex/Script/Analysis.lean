import SfcIndex.Script.Component
import SfcIndex.Script.Language
import SfcIndex.Script.Setup

/-! # The bindings of a script

The names of a script are taken from the statements that a reader of the language finds in it. Any
reader will do: what it reads depends on the language and the text only.
-/

namespace SfcIndex.Script

/-- What a script reads as. -/
structure Reading where
  statements : List Statement
  /-- What is said about each syntax error. -/
  errors : List String
  /-- Whether the reader gave up. -/
  gaveUp : Bool

/-- A reader of scripts. -/
def Reader : Type := Language → List Char → Reading

/-- The statements that names are taken from; none when the reader gave up. -/
def Reading.outline (reading : Reading) : List Statement :=
  if reading.gaveUp then [] else reading.statements

/-- What is known of a script. -/
structure Analysis where
  bindings : List Binding
  /-- Whether its component is a class. -/
  isClass : Bool
  /-- Whether its reader gave up. -/
  gaveUp : Bool
  /-- What is said about each syntax error. -/
  diagnostics : List String
  deriving Repr, DecidableEq

/-- The names of a script that reads as `statements`; `setup` tells that the script is the setup of
its component. -/
def outlineBindings (setup : Bool) (statements : List Statement) : List Binding :=
  if setup then statements.flatMap Statement.setupBindings
  else (defaultExport? statements).elim [] DefaultExport.bindings

/-- Whether the component of such a script is a class. -/
def outlineIsClass (setup : Bool) (statements : List Statement) : Bool :=
  !setup && (defaultExport? statements).any DefaultExport.isClass

/-- Analyzes a script in a language. -/
def analyze (reader : Reader) (language : Language) (setup : Bool) (text : List Char) : Analysis :=
  let reading := reader language text
  { bindings := outlineBindings setup reading.outline
    isClass := outlineIsClass setup reading.outline
    gaveUp := reading.gaveUp
    diagnostics := reading.errors }

end SfcIndex.Script
