import SfcIndex.Script.Grammar.Pattern

/-! # Types -/

namespace SfcIndex.Script.Grammar

open SfcIndex.Script.Parser

/-- The `<` that opens type arguments, also where two of them were read as one token. -/
def splitLess : Parser Unit := do
  let state ← get
  match state.current.token.kind with
  | .punct .shiftLeft | .punct .shiftLeftAssign | .punct .lessEqual =>
    let start := state.current.start
    setCurrent (.make (.punct .less) start start.next.rest state.current.token.onNewLine false false)
  | _ => return

/-- Types between `<` and `>`, the first of which is the current token. -/
def bracketedTypes (g : Grammar) : Parser (List TypeOutline) := do
  expect .less
  let (types, _) ← commaSeparated .greater
    (within (fun context => { context with plainTypes := false }) g.type)
  if types.isEmpty then record
  expect .greater
  return types

/-- The type arguments of a named type. -/
def typeArguments (g : Grammar) : Parser Unit := do
  if (← isAt .shiftLeft) && !(← onNewLine) then splitLess
  if (← isAt .less) && !(← onNewLine) then
    let _ ← bracketedTypes g

/-- The parameters that a declaration is generic in. -/
def typeParameters (g : Grammar) : Parser Unit := do
  if ← eatTyped .less then
    let (parameters, _) ← commaSeparated .greater do
      let _ ← modifiers true
      let _ ← bindingName
      if ← eatWord "extends" then
        let _ ← g.type
      if ← eat .assign then
        let _ ← g.type
    if parameters.isEmpty then record
    expect .greater

/-- A type, or a claim about a parameter such as `x is T`. -/
def typeOrPredicate (g : Grammar) : Parser Unit := do
  let next ← nextToken
  if (← kind).isIdentifier && next.kind.isWord "is" && !next.onNewLine then
    advanceName
    advance
  let _ ← g.type

/-- The type of a function's result, after a colon. -/
def returnType (g : Grammar) : Parser Bool := do
  if ← eatTyped .colon then
    typeOrPredicate g
    return true
  return false

/-- The end of a member of an object type. -/
def endTypeMember : Parser Unit := do unless ← eat .comma do endStatement

/-! ### Members of object types -/

/-- Whether the brackets here are those of an index signature. -/
def looksLikeIndexSignature : Parser Bool := do
  unless ← isAt .lbracket do return false
  looksLike do
    advance
    if (← isAt .ellipsis) || (← isAt .rbracket) then return true
    let current ← kind
    unless current.isIdentifier || current.isWordIn Word.modifiers.contains do return false
    advanceName
    if current.isWordIn Word.modifiers.contains && (← kind).isIdentifier then return true
    unless current.isIdentifier do return false
    if (← isAt .colon) || (← isAt .comma) then return true
    unless ← eat .question do return false
    isAtAny [.colon, .comma, .rbracket]

/-- An index signature such as `[key: string]: T`. -/
def indexSignature (g : Grammar) : Parser Unit := do
  expect .lbracket
  let _ ← commaSeparated .rbracket (parameter g false)
  expect .rbracket
  typeAnnotation g
  endTypeMember

/-- A function without a body. -/
def signature (g : Grammar) : Parser Unit := do
  typeParameters g
  let _ ← parameters g false
  let _ ← returnType g

def typeMember (g : Grammar) : Parser TypeMember := do
  let start ← startOffset
  if (← isAt .lparen) || (← isAt .less) then
    signature g
    endTypeMember
    return .other (← spanFrom start)
  let next ← nextToken
  if (← isAtWord "new") && (next.kind.isPunct .lparen || next.kind.isPunct .less) then
    advance
    signature g
    endTypeMember
    return .other (← spanFrom start)
  let found ← modifiers false
  unless found.all (· = "readonly") do record
  if (← eatAccessor).isSome then
    let _ ← propertyKey g
    signature g
    endTypeMember
    return .other (← spanFrom start)
  if ← looksLikeIndexSignature then
    indexSignature g
    return .other (← spanFrom start)
  let key ← propertyKey g
  let _ ← eat .question
  if (← isAt .lparen) || (← isAt .less) then
    signature g
    endTypeMember
    return .other (← spanFrom start)
  typeAnnotation g
  endTypeMember
  return .property key (← spanFrom start)

/-- The members of an object type in their braces. -/
def typeMembers (g : Grammar) : Parser (List TypeMember) := do
  expect .lbrace
  let members ← within (fun context => { context with plainTypes := false })
    (itemsUntil .rbrace (typeMember g))
  expect .rbrace
  return members

/-- Whether the braces here are those of a mapped type. -/
def looksLikeMappedType : Parser Bool := do
  unless ← isAt .lbrace do return false
  looksLike do
    advance
    if ← isAtAny [.plus, .minus] then
      advance
      return ← isAtWord "readonly"
    let _ ← eatWord "readonly"
    unless ← eat .lbracket do return false
    unless (← kind).isAnyWord do return false
    advanceName
    isAtWord "in"

/-- A type with a member for each of a set of keys. -/
def mappedType (g : Grammar) : Parser Unit := do
  expect .lbrace
  if ← isAtAny [.plus, .minus] then
    advance
    expectWord "readonly"
  else
    let _ ← eatWord "readonly"
  expect .lbracket
  let _ ← takeName
  expectWord "in"
  let _ ← g.type
  if ← eatWord "as" then
    let _ ← g.type
  expect .rbracket
  if ← isAtAny [.plus, .minus] then
    advance
    expect .question
  else
    let _ ← eat .question
  typeAnnotation g
  unless ← eat .comma do endStatement
  expect .rbrace

/-! ### Types from the inside out -/

/-- A name with the names it is looked up in. -/
def qualifiedName : Parser Unit := do
  let _ ← takeName
  loop (fun () => do
    unless ← isAt .dot do return .done ()
    advance
    match ← kind with
    | .privateName _ => advance
    | _ =>
      let _ ← takeName
    return .more ()) ()

def namedType (g : Grammar) : Parser Unit := do
  qualifiedName
  typeArguments g

/-- The type of a module, or of something in it. -/
def importType (g : Grammar) : Parser Unit := do
  expectWord "import"
  expect .lparen
  let _ ← g.type
  if ← eat .comma then
    unless ← isAt .rparen do
      let _ ← g.assignment
      let _ ← eat .comma
  expect .rparen
  if ← eat .dot then qualifiedName
  typeArguments g

def tupleElement (g : Grammar) : Parser Unit := do
  let spread ← eat .ellipsis
  let named ← looksLike do
    unless (← kind).isAnyWord do return false
    advanceName
    if ← isAt .colon then return true
    return (← eat .question) && (← isAt .colon)
  if named then
    advanceName
    let _ ← eat .question
    expect .colon
    let _ ← g.type
  else
    let _ ← g.type
    unless spread do
      let _ ← eat .question

/-- The substitutions of a template, the first part of which is the current token. -/
def templateParts (substitution : Parser Unit) (tagged : Bool) : Parser Unit :=
  loop (fun () => do
    match ← kind with
    | .template last sound =>
      unless sound || tagged do record
      advance
      if last then return .done ()
      substitution
      unless ← isAt .rbrace do unexpected
      let state ← get
      setCurrent (.readTemplateTail state.current.start state.current.rest)
      return .more ()
    | _ => unexpected) ()

/-- Whether a type can start with a token. -/
def startsType (current : TokenKind) : Bool :=
  match current with
  | .word word =>
    Word.isIdentifier word ||
      ["void", "null", "this", "typeof", "new", "true", "false", "import", "function"].contains word
  | .number _ => true
  | .text _ => true
  | .template _ _ => true
  | .punct punct =>
    [Punct.lbrace, .lbracket, .less, .pipe, .ampersand, .star, .question, .ellipsis, .bang, .minus,
      .lparen].contains punct
  | _ => false

/-- A type that is no array, no operator and no union. -/
def atomicType (g : Grammar) : Parser TypeOutline := do
  let start ← startOffset
  let next ← nextToken
  let finish : Parser TypeOutline := return .other (← spanFrom start)
  match ← kind with
  | .text _ =>
    advance
    finish
  | .number malformed =>
    if malformed then unexpected
    advance
    finish
  | .template _ _ =>
    templateParts (do let _ ← g.type) true
    finish
  | .punct .minus =>
    advance
    match ← kind with
    | .number _ => advance
    | _ => unexpected
    finish
  | .punct .lbracket =>
    advance
    let _ ← commaSeparated .rbracket
      (within (fun context => { context with plainTypes := false }) (tupleElement g))
    expect .rbracket
    finish
  | .punct .lparen =>
    advance
    let _ ← within (fun context => { context with plainTypes := false }) g.type
    expect .rparen
    finish
  | .punct .lbrace =>
    if ← looksLikeMappedType then
      within (fun context => { context with plainTypes := false }) (mappedType g)
      finish
    else
      let members ← typeMembers g
      return .literal members (← spanFrom start)
  | .punct .question =>
    advance
    unless ← isAtAny [.comma, .rbrace, .rparen, .greater, .assign, .pipe] do
      let _ ← g.type
    finish
  | .punct .bang =>
    advance
    let _ ← g.type
    finish
  | .word "this" =>
    advance
    if (← isAtWord "is") && !(← onNewLine) then
      advance
      let _ ← g.type
    finish
  | .word "typeof" =>
    advance
    if ← isAtWord "import" then importType g
    else namedType g
    finish
  | .word "import" =>
    importType g
    finish
  | .word "asserts" =>
    if !next.onNewLine && (next.kind.isIdentifier || next.kind.isWord "this") then
      advance
      advanceName
      if ← eatWord "is" then
        let _ ← g.type
    else namedType g
    finish
  | .word word =>
    if ["void", "null", "true", "false"].contains word then advance
    else if Word.builtinTypes.contains word && !next.kind.isPunct .dot then advance
    else namedType g
    finish
  | _ => unexpected

/-- A type with brackets after it: arrays and the types of members. -/
def postfixType (g : Grammar) : Parser TypeOutline := do
  let start ← startOffset
  let first ← atomicType g
  loop (fun (type : TypeOutline) => do
    if ← onNewLine then return .done type
    match ← kind with
    | .punct .bang =>
      advance
      return .more (.other (← spanFrom start))
    | .punct .question =>
      if startsType (← nextToken).kind then return .done type
      advance
      return .more (.other (← spanFrom start))
    | .punct .lbracket =>
      advance
      unless ← isAt .rbracket do
        let _ ← within (fun context => { context with plainTypes := false }) g.type
      expect .rbracket
      return .more (.other (← spanFrom start))
    | _ => return .done type) first

/-- A type that a conditional type names in its condition. -/
def inferType (g : Grammar) : Parser Unit := do
  advance
  let _ ← bindingName
  let _ ← attempt do
    expectWord "extends"
    let _ ← within (fun context => { context with plainTypes := true }) g.type
    if !(← context).plainTypes && (← isAt .question) then unexpected

/-- Operators in front of a type. -/
def operatorType (g : Grammar) : Parser TypeOutline := do
  let start ← startOffset
  let operators ← loop (fun (count : Nat) => do
    if (← kind).isWordIn ["keyof", "unique", "readonly"].contains then
      advance
      return .more (count + 1)
    return .done count) 0
  if ← isAtWord "infer" then
    inferType g
    return .other (← spanFrom start)
  let type ← within (fun context => { context with plainTypes := false }) (postfixType g)
  if operators = 0 then return type
  return .other (← spanFrom start)

/-- Whether the parentheses here start the type of a function. -/
def looksLikeFunctionType (g : Grammar) : Parser Bool := do
  if ← isAt .less then return true
  let next ← nextToken
  if (← isAtWord "new") || ((← isAtWord "abstract") && next.kind.isWord "new") then return true
  unless ← isAt .lparen do return false
  looksLike do
    advance
    if (← isAt .ellipsis) || (← isAt .rparen) then return true
    let _ ← modifiers false
    if (← kind).isIdentifier || (← isAtWord "this") then advanceName
    else if (← isAt .lbrace) || (← isAt .lbracket) then
      let _ ← g.pattern
    else return false
    if ← isAtAny [.colon, .comma, .question, .assign] then return true
    return (← eat .rparen) && (← isAt .arrow)

/-- The type of a function or a constructor. -/
def functionType (g : Grammar) : Parser Unit := do
  let _ ← eatWord "abstract"
  let _ ← eatWord "new"
  typeParameters g
  let _ ← parameters g false
  expect .arrow
  typeOrPredicate g

/-- Types with an operator between them, which may also stand in front of the first one. -/
def operatedTypes (operator : Punct) (operand : Parser TypeOutline) : Parser TypeOutline := do
  let start ← startOffset
  let leading ← eat operator
  let first ← operand
  let leadingSpan ← spanFrom start
  loop (fun (type : TypeOutline) => do
    unless ← eat operator do return .done type
    let _ ← operand
    return .more (.other (← spanFrom start)))
    (if leading then .other leadingSpan else first)

def unionType (g : Grammar) : Parser TypeOutline :=
  operatedTypes .pipe (operatedTypes .ampersand (operatorType g))

/-- The rule for types. -/
def typeRule (g : Grammar) : Parser TypeOutline := do
  let start ← startOffset
  if ← looksLikeFunctionType g then
    functionType g
    return .other (← spanFrom start)
  let type ← unionType g
  if !(← context).plainTypes && !(← onNewLine) && (← isAtWord "extends") then
    advance
    let _ ← within (fun context => { context with plainTypes := true }) g.type
    expect .question
    let free := within (fun context => { context with plainTypes := false }) g.type
    let _ ← free
    expect .colon
    let _ ← free
    return .other (← spanFrom start)
  return type

end SfcIndex.Script.Grammar
