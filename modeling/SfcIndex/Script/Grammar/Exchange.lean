import SfcIndex.Script.Grammar.Declaration

/-! # Imports and exports -/

namespace SfcIndex.Script.Grammar

open SfcIndex.Script.Parser

/-- A text, which names a module. -/
def moduleText : Parser Unit := do
  match ← kind with
  | .text _ => advance
  | _ => unexpected

/-- The module that names come from, with the attributes it is loaded with. -/
def moduleSource : Parser Unit := do
  moduleText
  if (← isAtWord "with") || ((← isAtWord "assert") && !(← onNewLine)) then
    advance
    expect .lbrace
    let _ ← commaSeparated .rbrace do
      match ← kind with
      | .text _ => advance
      | _ =>
        let _ ← takeName
      expect .colon
      moduleText
    expect .rbrace

/-- The module after `from`, and the end of the statement. -/
def fromModule : Parser Unit := do
  expectWord "from"
  moduleSource
  endStatement

/-- A name that is exchanged between modules; it tells whether it can be a name inside one. -/
def exchangedName : Parser Bool := do
  match ← kind with
  | .text _ =>
    advance
    return false
  | .word word =>
    advanceName
    return Word.isBindingIdentifier word
  | _ => unexpected

/-- The end of an entry of a list of names. -/
def endsEntry : Parser Bool := isAtAny [.comma, .rbrace]

/-- A name of a list, after `type` if that stands there, and under another name after `as`. -/
def exchangedEntry {α : Type} (entry : Parser α) : Parser α := do
  let typeOnly ← attempt do
    unless (← language).typed && (← isAtWord "type") do unexpected
    advance
    let found ← entry
    unless ← endsEntry do unexpected
    return found
  match typeOnly with
  | some found => return found
  | none => entry

/-- An imported name; the name inside the module must be one that can be declared. -/
def importedName : Parser Unit := do
  let declarable ← exchangedName
  if ← eatWord "as" then
    let _ ← bindingName
  else unless declarable do unexpected

/-- The names of an import in their braces. -/
def importedNames : Parser Unit := do
  expect .lbrace
  let _ ← commaSeparated .rbrace (exchangedEntry importedName)
  expect .rbrace

/-- All names of a module under one. -/
def importedNamespace : Parser Unit := do
  expect .star
  expectWord "as"
  let _ ← bindingName

/-- The names of an import other than the default one. -/
def importClause : Parser Unit := do
  if ← isAt .star then importedNamespace else importedNames

/-- Whether the word before is no name but says how the import is done. -/
def looksLikeImportMode (afterName : Parser Bool) : Parser Bool := looksLike do
  advance
  let current ← kind
  if current.isPunct .star || current.isPunct .lbrace then return true
  unless current.isBindingIdentifier do return false
  unless current.isWord "from" do return true
  advance
  afterName

/-- The word `type`, `defer` or `source` after `import`, if it is no name there; the answer is
whether types are imported. -/
def importMode : Parser Bool := do
  if (← language).typed && (← isAtWord "type") then
    if ← looksLikeImportMode (return (← isAtWord "from") || (← isAt .assign)) then
      advance
      return true
  else if ← isAtWord "defer" then
    if (← nextToken).kind.isPunct .star then advance
  else if ← isAtWord "source" then
    if ← looksLikeImportMode (isAtWord "from") then advance
  return false

/-- An import, from its keyword on. -/
def importDeclaration : Parser Unit := do
  expectWord "import"
  match ← kind with
  | .text _ =>
    moduleSource
    endStatement
  | _ =>
    let ofTypes ← importMode
    if (← kind).isBindingIdentifier then
      let _ ← bindingName
      if (← language).typed && (← isAt .assign) then return ← importAlias
      if ← eat .comma then
        if ofTypes then record
        importClause
    else importClause
    fromModule

/-! ### Exports -/

/-- An exported name under its name outside; it tells whether it can be one of this module. -/
def exportedName : Parser Bool := do
  let usable ← exchangedName
  if ← eatWord "as" then
    let _ ← exchangedName
  return usable

/-- The names of an export. Without a module they must be names that stand in this one. -/
def exportedNames : Parser Unit := do
  expect .lbrace
  let (usable, _) ← commaSeparated .rbrace (exchangedEntry exportedName)
  expect .rbrace
  if ← eatWord "from" then moduleSource
  else unless usable.all id do record
  endStatement

/-- All names of another module. -/
def exportedModule : Parser Unit := do
  expect .star
  if ← eatWord "as" then
    let _ ← exchangedName
  fromModule

/-- A function that may have no name. -/
def functionOfModule (g : Grammar) (isAsync : Bool) :
    Parser (Option Identifier × Option (List Statement)) := do
  expectWord "function"
  let isGenerator ← eat .star
  let name ← functionName false
  return (name, ← functionRest g isAsync isGenerator .plain)

/-- What a module exports by default. -/
def defaultExport (g : Grammar) : Parser DefaultExport := do
  let next ← nextToken
  let typed := (← language).typed
  let sameLine := !next.onNewLine
  if ← isAt .at then
    decorators g
    let _ ← eatWord "abstract"
    let (name, _) ← classRest g
    return .classDeclaration name
  if ← isAtWord "class" then
    let (name, _) ← classRest g
    return .classDeclaration name
  if typed && (← isAtWord "abstract") && next.kind.isWord "class" && sameLine then
    advance
    let (name, _) ← classRest g
    return .classDeclaration name
  if typed && (← isAtWord "interface") && next.kind.isBindingIdentifier && sameLine then
    interfaceDeclaration g
    return .other
  if (← isAtWord "function") || (← looksLikeAsyncFunction) then
    let isAsync ← eatWord "async"
    let (name, body) ← functionOfModule g isAsync
    return .function name body
  let value ← allowingIn g.assignment
  endStatement
  return .expression value

/-- An export of a type, or of types: `export type` before a list. -/
def looksLikeTypeExport : Parser Bool := do
  unless (← language).typed && (← isAtWord "type") do return false
  let next ← nextToken
  return next.kind.isPunct .lbrace || next.kind.isPunct .star

/-- An export, from its keyword on; `start` is where the statement starts. -/
def exportDeclaration (g : Grammar) (start : Nat) : Parser Statement := do
  expectWord "export"
  let typed := (← language).typed
  match ← kind with
  | .word "default" =>
    advance
    let value ← defaultExport g
    return .exportDefault value (← spanFrom start)
  | .punct .star =>
    exportedModule
    otherFrom start
  | .punct .lbrace =>
    exportedNames
    otherFrom start
  | .punct .assign =>
    unless typed do unexpected
    advance
    let _ ← g.expression
    endStatement
    otherFrom start
  | .punct .at =>
    decorators g
    let _ ← declaration g start
    otherFrom start
  | .word "as" =>
    advance
    expectWord "namespace"
    let _ ← takeName
    endStatement
    otherFrom start
  | .word "import" =>
    importDeclaration
    otherFrom start
  | .word _ =>
    if ← looksLikeTypeExport then
      advance
      if ← isAt .star then exportedModule else exportedNames
    else
      let _ ← declaration g start
    otherFrom start
  | _ => unexpected

end SfcIndex.Script.Grammar
