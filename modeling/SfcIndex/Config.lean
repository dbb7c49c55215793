import SfcIndex.Json.Reader
import SfcIndex.Options

/-! # The configuration file

A configuration is a JSON object, or an array of its values in order. What is not given has its
default. Keys that mean nothing here are passed over; a key that means something stands there once.
-/

namespace SfcIndex

namespace Json

/-- The text that a value is. -/
def string? : Json → Option String
  | .string value => value
  | _ => none

def bool? : Json → Option Bool
  | .bool value => some value
  | _ => none

/-- The texts that an array holds. -/
def strings? : Json → Option (List String)
  | .array elements => elements.mapM string?
  | _ => none

/-- The values of a record with the given keys, from an object or from an array of them in order. A
value that is not there is nothing. -/
def fields? (keys : List String) : Json → Option (List (Option Json))
  | .array elements =>
    if elements.length ≤ keys.length then
      some ((elements.map some) ++ List.replicate (keys.length - elements.length) none)
    else none
  | .object members => do
    let names ← members.mapM Prod.fst
    let known := names.filter keys.contains
    if known.eraseDups.length = known.length then
      some (keys.map fun key => (members.find? fun member => member.1 = some key).map Prod.snd)
    else none
  | _ => none

end Json

namespace Options

/-- The keys of the options, in the order of an array of their values. -/
def keys : List String := ["extensions", "rawTextTags", "template", "script", "style"]

/-- A value that is given, or its default. -/
def given? {α : Type} (default : α) (decode? : Json → Option α) : Option Json → Option α
  | none => some default
  | some value => decode? value

/-- The options that a value describes. -/
def ofJson? (value : Json) : Option Options := do
  let standard : Options := {}
  match ← value.fields? keys with
  | [extensions, rawTags, template, script, style] =>
    return {
      extensions := ← given? standard.extensions Json.strings? extensions
      rawTags := ← given? standard.rawTags Json.strings? rawTags
      template := ← given? standard.template Json.bool? template
      script := ← given? standard.script Json.bool? script
      style := ← given? standard.style Json.bool? style }
  | _ => none

end Options

namespace Config

/-- The name of the configuration file that is read without being asked for. -/
def fileName : String := "vellum.config.json"

/-- A reference to a description of the format, which has no effect. -/
def schema? : Json → Option Unit
  | .null => some ()
  | value => value.string?.map fun _ => ()

/-- The options that a configuration describes. -/
def ofJson? (value : Json) : Option Options := do
  match ← value.fields? ["$schema", "definition"] with
  | [schema, definition] =>
    Options.given? () schema? schema
    Options.given? {} Options.ofJson? definition
  | _ => none

/-- The options that a configuration file describes. -/
def read? (text : List Char) : Option Options := do ofJson? (← Json.read? text)

end Config

end SfcIndex
