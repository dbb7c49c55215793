import SfcIndex.Script.Grammar.Class
import SfcIndex.Script.Grammar.Variable

/-! # Declarations -/

namespace SfcIndex.Script.Grammar

open SfcIndex.Script.Parser

/-- A statement of which only the extent is kept. -/
def otherFrom (start : Nat) : Parser Statement := return .other (← spanFrom start)

/-- Whether a declaration that only typed scripts have starts here. -/
def looksLikeTypedDeclaration : Parser Bool := do
  unless (← language).typed do return false
  looksLike <| loop (fun () => do
    match ← kind with
    | .word word =>
      if ["var", "let", "const", "function", "class", "enum"].contains word then return .done true
      else if word = "interface" || word = "type" then
        advance
        return .done ((← kind).isBindingIdentifier && !(← onNewLine))
      else if word = "module" || word = "namespace" then
        advance
        let named := match ← kind with
          | .text _ => true
          | kind => kind.isBindingIdentifier
        return .done (named && !(← onNewLine))
      else if word = "global" then
        advance
        return .done ((← isAt .lbrace) || (← isAtWord "export") ||
          (← kind).isWordIn fun name => !Word.isKeyword name)
      else if word = "import" then
        advance
        let clause := match ← kind with
          | .text _ => true
          | kind => kind.isAnyWord
        return .done (clause || (← isAtAny [.star, .lbrace]))
      else if word = "export" then
        advance
        return .done ((← isAtWord "default") || (← isAtWord "as") ||
          (← isAtAny [.assign, .star, .lbrace, .at]))
      else if ["abstract", "accessor", "async", "declare", "private", "protected", "public",
          "readonly"].contains word then
        advance
        if ← onNewLine then return .done false
        return .more ()
      else if word = "static" then
        advance
        return .more ()
      else return .done false
    | _ => return .done false) ()

/-! ### Types, enumerations and namespaces -/

/-- A name for a type. -/
def typeAlias (g : Grammar) : Parser Unit := do
  expectWord "type"
  let _ ← bindingName
  typeParameters g
  expect .assign
  let _ ← g.type
  endStatement

def interfaceDeclaration (g : Grammar) : Parser Unit := do
  expectWord "interface"
  let _ ← bindingName
  typeParameters g
  if ← eatWord "extends" then
    let _ ← commaList (extended g)
  let _ ← typeMembers g

def enumMember (g : Grammar) : Parser Unit := do
  match ← kind with
  | .number _ => record
  | _ => pure ()
  let key ← propertyKey g
  match key with
  | .computed _ => record
  | _ => pure ()
  if ← eat .assign then
    let _ ← g.assignment

def enumDeclaration (g : Grammar) : Parser Unit := do
  expectWord "enum"
  let _ ← bindingName
  expect .lbrace
  let _ ← commaSeparated .rbrace (enumMember g)
  expect .rbrace

/-- A namespace, or a module by the text of its name, which may have no body. -/
def namespaceDeclaration (g : Grammar) : Parser Unit := do
  if ← eatWord "global" then
    let _ ← block g
    return
  advance
  match ← kind with
  | .text _ =>
    advance
    if ← isAt .lbrace then
      let _ ← block g
    else endStatement
  | _ =>
    let _ ← bindingName
    loop (fun () => do
      unless ← isAt .dot do return .done ()
      advance
      let _ ← takeName
      return .more ()) ()
    let _ ← block g

/-- What a name given to an import stands for. -/
def importAlias : Parser Unit := do
  expect .assign
  if (← isAtWord "require") && (← nextToken).kind.isPunct .lparen then
    advance
    advance
    match ← kind with
    | .text _ => advance
    | _ => unexpected
    expect .rparen
  else qualifiedName
  endStatement

/-! ### Declarations with modifiers -/

/-- The modifiers in front of a declaration. -/
def declarationModifiers : Parser (List String) := do
  let found ← loop (fun found => do
    match ← kind with
    | .word word =>
      let next ← nextToken
      let declares := ["abstract", "accessor", "async", "declare", "private", "protected", "public",
        "readonly", "static"].contains word
      if declares && !next.onNewLine && next.kind.isAnyWord then
        advance
        return .more (word :: found)
      else return .done found
    | _ => return .done found) []
  return found.reverse

/-- A class with its name. -/
def classDeclaration (g : Grammar) (start : Nat) : Parser Statement := do
  let (name, body) ← classRest g
  return .classDeclaration name body (← spanFrom start)

/-- A function with its name. -/
def functionDeclaration (g : Grammar) (start : Nat) (isAsync : Bool) : Parser Statement := do
  let (name, body) ← functionAfterAsync g isAsync true
  return .function name body (← spanFrom start)

/-- A declaration after its modifiers. -/
def declarationRest (g : Grammar) (start : Nat) (isAsync : Bool) : Parser Statement := do
  match ← kind with
  | .word "var" =>
    advance
    variablesRest g start .hoisted
  | .word "let" =>
    advance
    variablesRest g start .scoped
  | .word "const" =>
    if (← nextToken).kind.isWord "enum" then
      advance
      enumDeclaration g
      otherFrom start
    else
      advance
      variablesRest g start .constant
  | .word "class" => classDeclaration g start
  | .word "function" => functionDeclaration g start isAsync
  | .word "type" =>
    typeAlias g
    otherFrom start
  | .word "interface" =>
    interfaceDeclaration g
    otherFrom start
  | .word "enum" =>
    enumDeclaration g
    otherFrom start
  | .word "import" =>
    advance
    let _ ← bindingName
    importAlias
    otherFrom start
  | .word "module" | .word "namespace" | .word "global" =>
    namespaceDeclaration g
    otherFrom start
  | _ => unexpected

/-- A declaration with its modifiers. -/
def declaration (g : Grammar) (start : Nat) : Parser Statement := do
  let found ← declarationModifiers
  let isAsync := found.contains "async"
  let ambient := found.contains "declare"
  within (fun context => { context with ambient := context.ambient || ambient })
    (declarationRest g start isAsync)

end SfcIndex.Script.Grammar
