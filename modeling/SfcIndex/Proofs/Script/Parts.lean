import Mathlib.Logic.Relation
import Mathlib.Data.List.ReduceOption
import SfcIndex.Script.Analysis

/-! # The parts of a script

`Node` is any part of a script that has an extent, and `Node.children` is what it is made of, in
the order of the text. The extents are well placed (`Node.WellPlaced`) if what a part is made of
lies inside it, apart and in order, and names take up room.
-/

namespace SfcIndex.Script

def Key.span : Key → Span
  | .identifier word => word.span
  | .text _ span => span
  | .other span => span
  | .computed span => span

def Member.span : Member → Span
  | .property _ _ span => span
  | .spread _ span => span

def Pattern.span : Pattern → Span
  | .identifier word => word.span
  | .object _ _ span => span
  | .array _ _ span => span
  | .withDefault _ _ span => span

def PatternMember.span : PatternMember → Span
  | .property _ _ span => span

def Declarator.span : Declarator → Span
  | .declare _ _ span => span

def TypeMember.span : TypeMember → Span
  | .property _ span => span
  | .other span => span

def TypeOutline.span : TypeOutline → Span
  | .literal _ span => span
  | .other span => span

def Statement.span : Statement → Span
  | .variables _ span => span
  | .function _ _ span => span
  | .classDeclaration _ _ span => span
  | .expression _ span => span
  | .returns _ span => span
  | .exportDefault _ span => span
  | .other span => span

/-- A part of a script. -/
inductive Node where
  | script (statements : List Statement) (span : Span)
  | statement (statement : Statement)
  | declarator (declarator : Declarator)
  | pattern (pattern : Pattern)
  | patternMember (member : PatternMember)
  | expr (expr : Expr)
  | member (member : Member)
  /-- A spread among the elements of an array literal or the arguments of a call. -/
  | spread (argument : Expr) (span : Span)
  | key (key : Key)
  /-- The name of a function or a class. -/
  | word (identifier : Identifier)
  | classBody (span : Span)
  | type (outline : TypeOutline)
  | typeMember (member : TypeMember)

def Element.node? : Element → Option Node
  | .value content => some (.expr content)
  | .spread argument span => some (.spread argument span)
  | .hole => none

/-- Whether one word is both the key and the value of a property. -/
def Key.isAlso (key : Key) : Expr → Bool
  | .identifier word => key = .identifier word
  | _ => false

/-- Whether one word is both the key and what its value is bound to. -/
def Key.isAlsoBound (key : Key) : Pattern → Bool
  | .identifier word => key = .identifier word
  | .withDefault pattern _ _ => key.isAlsoBound pattern
  | _ => false

/-- What a member of an object literal is made of. -/
def Member.children : Member → List Node
  | .property key value _ => .key key :: if key.isAlso value then [] else [.expr value]
  | .spread argument _ => [.expr argument]

/-- What a member of an object pattern is made of. -/
def PatternMember.children : PatternMember → List Node
  | .property key value _ =>
    (if key.isAlsoBound value then [] else [.key key]) ++ [.pattern value]

/-- What a statement is made of. -/
def Statement.children : Statement → List Node
  | .variables declarators _ => declarators.map .declarator
  | .function name body _ => name.toList.map .word ++ (body.getD []).map .statement
  | .classDeclaration name body _ => name.toList.map .word ++ [.classBody body]
  | .expression value _ => [.expr value]
  | .returns argument _ => argument.toList.map .expr
  | .exportDefault (.expression value) _ => [.expr value]
  | .exportDefault (.classDeclaration name) _ => name.toList.map .word
  | .exportDefault (.function name body) _ =>
    name.toList.map .word ++ (body.getD []).map .statement
  | .exportDefault .other _ => []
  | .other _ => []

/-- What a pattern is made of. -/
def Pattern.children : Pattern → List Node
  | .identifier _ => []
  | .object members rest _ => members.map .patternMember ++ rest.toList.map .pattern
  | .array elements rest _ => elements.reduceOption.map .pattern ++ rest.toList.map .pattern
  | .withDefault pattern default _ => [.pattern pattern, .expr default]

/-- What an expression is made of. -/
def Expr.children : Expr → List Node
  | .object members _ => members.map .member
  | .array elements _ => elements.filterMap Element.node?
  | .function body _ => (body.getD []).map .statement
  | .arrow (.expression value) _ => [.expr value]
  | .arrow (.block body) _ => body.map .statement
  | .call callee types arguments _ =>
    .expr callee :: (types.map .type ++ arguments.filterMap Element.node?)
  | .wrapped _ inner _ => [.expr inner]
  | _ => []

/-- The name of a key is never empty. -/
theorem Key.cases_of_identifier? {key : Key} {identifier : Identifier}
    (named : key.identifier? = some identifier) :
    identifier.name ≠ "" ∧
      (key = .identifier identifier ∨ key = .text identifier.name identifier.span) := by
  cases key with
  | identifier word =>
    simp only [Key.identifier?] at named
    split at named
    next => cases named
    next filled =>
      cases named
      exact ⟨fun nameless => filled (String.isEmpty_iff.2 nameless), .inl rfl⟩
  | text content span =>
    simp only [Key.identifier?] at named
    split at named
    next => cases named
    next filled =>
      cases named
      exact ⟨fun nameless => filled (String.isEmpty_iff.2 nameless), .inr rfl⟩
  | _ => cases named

/-- An element is a name as a word, or as a text that is not empty. -/
theorem Element.cases_of_identifier? {expr : Expr} {identifier : Identifier}
    (named : (Element.value expr).identifier? = some identifier) :
    expr = .identifier identifier ∨
      identifier.name ≠ "" ∧ expr = .text identifier.name identifier.span := by
  cases expr with
  | identifier word =>
    cases named
    exact .inl rfl
  | text content span =>
    simp only [Element.identifier?] at named
    split at named
    next => cases named
    next filled =>
      cases named
      exact .inr ⟨fun nameless => filled (String.isEmpty_iff.2 nameless), rfl⟩
  | _ => cases named

namespace Node

def span : Node → Span
  | .script _ span => span
  | .statement part => part.span
  | .declarator part => part.span
  | .pattern part => part.span
  | .patternMember part => part.span
  | .expr part => part.span
  | .member part => part.span
  | .spread _ span => span
  | .key part => part.span
  | .word part => part.span
  | .classBody span => span
  | .type part => part.span
  | .typeMember part => part.span

/-- What a part is made of, in the order of the text. -/
def children : Node → List Node
  | .script statements _ => statements.map .statement
  | .statement part => part.children
  | .declarator (.declare target initial _) => .pattern target :: initial.toList.map .expr
  | .pattern part => part.children
  | .patternMember part => part.children
  | .expr part => part.children
  | .member part => part.children
  | .spread argument _ => [.expr argument]
  | .type (.literal members _) => members.map .typeMember
  | .typeMember (.property written _) => [.key written]
  | _ => []

/-- The name that a part is: a word, or a text that is not empty. -/
def name? : Node → Option Identifier
  | .word identifier => some identifier
  | .key part => part.identifier?
  | .expr part => (Element.value part).identifier?
  | .pattern (.identifier identifier) => some identifier
  | _ => none

/-- The name that a part is, if it is written as a word and is not a key. -/
def word? : Node → Option Identifier
  | .word identifier => some identifier
  | .expr (.identifier identifier) => some identifier
  | .pattern (.identifier identifier) => some identifier
  | _ => none

/-- A part is made of another one, perhaps through parts in between. -/
def Holds : Node → Node → Prop := Relation.ReflTransGen fun node child => child ∈ node.children

/-- A part ends where the other one starts, or before. -/
def EndsBefore (first second : Node) : Prop := first.span.stop ≤ second.span.start

instance : DecidableRel EndsBefore := fun first second =>
  inferInstanceAs (Decidable (first.span.stop ≤ second.span.start))

/-- What a part and its parts are made of lies inside, apart and in the order of the text; a part
that is a name takes up at least one byte. -/
inductive WellPlaced : Node → Prop where
  | intro {node : Node}
      (inside : ∀ child ∈ node.children, node.span.contains child.span)
      (ordered : node.children.Pairwise EndsBefore)
      (solid : ∀ identifier, node.name? = some identifier → node.span.start < node.span.stop)
      (parts : ∀ child ∈ node.children, child.WellPlaced) : node.WellPlaced

/-- Checks the extents of a part that is nested at most so deep. -/
def checkPlaced : (depth : Nat) → Node → Bool
  | 0, _ => false
  | depth + 1, node =>
    node.children.all (fun child => node.span.contains child.span) &&
    decide (node.children.Pairwise EndsBefore) &&
    (node.name?.isNone || decide (node.span.start < node.span.stop)) &&
    node.children.all (checkPlaced depth)

/-- A part is well placed if the check says so. -/
theorem wellPlaced_of_checkPlaced {depth : Nat} {node : Node}
    (checked : node.checkPlaced depth = true) : node.WellPlaced := by
  induction depth generalizing node with
  | zero => cases checked
  | succ depth ih =>
    simp only [checkPlaced, Bool.and_eq_true, List.all_eq_true, decide_eq_true_eq,
      Bool.or_eq_true] at checked
    obtain ⟨⟨⟨inside, ordered⟩, solid⟩, parts⟩ := checked
    refine .intro inside ordered ?_ fun child member => ih (parts child member)
    intro identifier named
    rw [named] at solid
    exact solid.resolve_left Bool.false_ne_true

/-- Every word that a part is made of has a name. -/
def WordsNamed (node : Node) : Prop :=
  ∀ part, node.Holds part → ∀ word ∈ part.word?, word.name ≠ ""

/-- Checks the words of a part that is nested at most so deep. -/
def checkNamed : (depth : Nat) → Node → Bool
  | 0, _ => false
  | depth + 1, node =>
    node.word?.all (fun word => decide (word.name ≠ "")) && node.children.all (checkNamed depth)

/-- The words of a part have names if the check says so. -/
theorem wordsNamed_of_checkNamed {depth : Nat} {node : Node}
    (checked : node.checkNamed depth = true) : node.WordsNamed := by
  induction depth generalizing node with
  | zero => cases checked
  | succ depth ih =>
    simp only [checkNamed, Bool.and_eq_true, Option.all_eq_true, List.all_eq_true,
      decide_eq_true_eq] at checked
    intro part holds word is
    obtain rfl | ⟨child, member, holds⟩ := Relation.ReflTransGen.cases_head holds
    · exact checked.1 word is
    · exact ih (checked.2 child member) part holds word is

/-- What the parts are that are names. Only a word that is no key may be without a name. -/
theorem cases_of_name? {node : Node} {identifier : Identifier}
    (named : node.name? = some identifier) :
    identifier.span = node.span ∧ (identifier.name ≠ "" ∨ node.word? = some identifier) := by
  cases node with
  | word part =>
    cases named
    exact ⟨rfl, .inr rfl⟩
  | key part =>
    obtain ⟨filled, rfl | rfl⟩ := Key.cases_of_identifier? named
    · exact ⟨rfl, .inl filled⟩
    · exact ⟨rfl, .inl filled⟩
  | expr part =>
    obtain rfl | ⟨filled, rfl⟩ := Element.cases_of_identifier? named
    · exact ⟨rfl, .inr rfl⟩
    · exact ⟨rfl, .inl filled⟩
  | pattern part =>
    cases part with
    | identifier part =>
      cases named
      exact ⟨rfl, .inr rfl⟩
    | _ => cases named
  | _ => cases named

end Node

end SfcIndex.Script
