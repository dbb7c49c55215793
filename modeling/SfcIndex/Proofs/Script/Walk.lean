import SfcIndex.Proofs.Script.Parts
import SfcIndex.Proofs.Text.Slice
import SfcIndex.Script.Read

/-! # The names of a script stand in the order of the text

A walk goes along parts of a script and takes names on its way: it passes over a part, takes the
name that a part is, or goes along what a part is made of. Both analyses of a script are walks
(`outlineBindings_walk`), so where the extents are well placed the names follow each other in the
text, and only a word that is no key can be without a name (`outlineBindings_inOrder`).
-/

namespace SfcIndex.Script

/-- What a walk along a list of parts finds. -/
inductive Walk : List Node → List Binding → Prop where
  | nil : Walk [] []
  | pass {node : Node} {nodes : List Node} {bindings : List Binding}
      (later : Walk nodes bindings) : Walk (node :: nodes) bindings
  | take {node : Node} {nodes : List Node} {identifier : Identifier} {bindings : List Binding}
      (category : Category) (named : node.name? = some identifier)
      (later : Walk nodes bindings) : Walk (node :: nodes) (identifier.binding category :: bindings)
  | enter {node : Node} {nodes : List Node} {inner bindings : List Binding}
      (inside : Walk node.children inner) (later : Walk nodes bindings) :
      Walk (node :: nodes) (inner ++ bindings)

namespace Walk

theorem none (nodes : List Node) : Walk nodes [] := by
  induction nodes with
  | nil => exact .nil
  | cons node nodes ih => exact .pass ih

/-- Two walks in a row are one. -/
theorem append {before after : List Node} {first second : List Binding}
    (left : Walk before first) (right : Walk after second) :
    Walk (before ++ after) (first ++ second) := by
  induction before generalizing first with
  | nil =>
    cases left
    exact right
  | cons node before ih =>
    cases left with
    | pass later => exact .pass (ih later)
    | take category named later => exact .take category named (ih later)
    | enter inside later =>
      rw [List.append_assoc]
      exact .enter inside (ih later)

theorem skip (before : List Node) {after : List Node} {bindings : List Binding}
    (walk : Walk after bindings) : Walk (before ++ after) bindings :=
  (none before).append walk

theorem first {before : List Node} {bindings : List Binding} (walk : Walk before bindings)
    (after : List Node) : Walk (before ++ after) bindings := by
  have gone := walk.append (none after)
  rwa [List.append_nil] at gone

/-- A walk through the parts of a node is one through the node. -/
theorem parts {node : Node} {bindings : List Binding} (inside : Walk node.children bindings) :
    Walk [node] bindings := by
  have gone := Walk.enter inside .nil
  rwa [List.append_nil] at gone

/-- A node gives the name that it has. -/
theorem name (category : Category) (node : Node) :
    Walk [node] (node.name?.toList.map (·.binding category)) := by
  cases named : node.name? with
  | none => exact .none [node]
  | some identifier => exact .take category named .nil

/-- Walks through each of several nodes are a walk through all. -/
theorem flatMap {α : Type} {view : α → Node} {names : α → List Binding}
    (each : ∀ item, Walk [view item] (names item)) (items : List α) :
    Walk (items.map view) (items.flatMap names) := by
  induction items with
  | nil => exact .nil
  | cons item items ih => exact (each item).append ih

/-- A walk through a node that may be missing is one through what there is. -/
theorem toList {α : Type} {view : α → Node} {names : α → List Binding}
    (each : ∀ item, Walk [view item] (names item)) (item : Option α) :
    Walk (item.toList.map view) (item.elim [] names) := by
  cases item with
  | none => exact .nil
  | some item => exact each item

/-- Wrappers lie on the way to what they are around. -/
theorem of_unwrap (expr : Expr) {bindings : List Binding}
    (walk : Walk [.expr expr.unwrap] bindings) : Walk [.expr expr] bindings := by
  refine expr.unwrap_induction (motive := fun outer => Walk [.expr outer] bindings) walk ?_
  intro wrapper inner span gone
  exact .parts gone

end Walk

section Literals

variable (category : Category)

theorem elementBindings_walk (elements : List Element) :
    Walk (elements.filterMap Element.node?) (elementBindings category elements) := by
  induction elements with
  | nil => exact .nil
  | cons element elements ih =>
    cases element with
    | hole => exact ih
    | spread argument span => exact .pass ih
    | value content =>
      have found : elementBindings category (.value content :: elements) =
          (Node.expr content).name?.toList.map (·.binding category) ++
            elementBindings category elements := by
        simp only [elementBindings, List.filterMap_cons, Node.name?]
        cases (Element.value content).identifier? <;> rfl
      rw [found]
      exact (Walk.name category (.expr content)).append ih

mutual

theorem groupBindings_walk (expr : Expr) : Walk [.expr expr] (expr.groupBindings category) := by
  cases expr with
  | object members =>
    rw [Expr.groupBindings]
    exact .parts (memberBindings_walk members)
  | call callee types arguments =>
    rw [Expr.groupBindings]
    exact .parts (.pass (.skip _ (argumentBindings_walk arguments)))
  | wrapped wrapper inner =>
    rw [Expr.groupBindings]
    exact .parts (groupBindings_walk inner)
  | _ => exact .none _

theorem literalBindings_walk (expr : Expr) : Walk [.expr expr] (expr.literalBindings category) := by
  cases expr with
  | object members =>
    rw [Expr.literalBindings]
    exact .parts (memberBindings_walk members)
  | array elements =>
    rw [Expr.literalBindings]
    exact .parts (elementBindings_walk category elements)
  | wrapped wrapper inner =>
    rw [Expr.literalBindings]
    exact .parts (literalBindings_walk inner)
  | _ => exact .none _

theorem argumentBindings_walk (arguments : List Element) :
    Walk (arguments.filterMap Element.node?) (argumentBindings category arguments) := by
  match arguments with
  | .value value :: later =>
    rw [argumentBindings]
    exact .first (literalBindings_walk value) (later.filterMap Element.node?)
  | [] => exact .nil
  | .spread _ _ :: _ => exact .none _
  | .hole :: _ => exact .none _

/-- The names of members are found on a walk through them. -/
theorem memberBindings_walk (members : List Member) :
    Walk (members.map .member) (memberBindings category members) := by
  match members with
  | [] => exact .nil
  | .property key value span :: rest =>
    rw [memberBindings]
    exact .enter (.first (.name category (.key key)) _) (memberBindings_walk rest)
  | .spread argument span :: rest =>
    rw [memberBindings]
    exact .enter (groupBindings_walk argument) (memberBindings_walk rest)

end

theorem members?_walk (expr : Expr) :
    Walk [.expr expr] (expr.members?.elim [] (memberBindings category)) := by
  apply Walk.of_unwrap
  unfold Expr.members?
  split
  next members span object =>
    rw [object]
    exact .parts (memberBindings_walk category members)
  next => exact .none _

end Literals

section Patterns

variable (category : Category)

mutual

/-- The variables of a pattern are found on a walk through it. -/
theorem patternBindings_walk (pattern : Pattern) :
    Walk [.pattern pattern] (pattern.bindings category) := by
  cases pattern with
  | identifier identifier => exact .name category (.pattern (.identifier identifier))
  | object members rest =>
    rw [Pattern.bindings]
    exact .parts ((patternMemberBindings_walk members).append (restBindings_walk rest))
  | array elements rest =>
    rw [Pattern.bindings]
    exact .parts ((patternElementBindings_walk elements).append (restBindings_walk rest))
  | withDefault pattern default =>
    rw [Pattern.bindings]
    exact .parts (.first (patternBindings_walk pattern) [.expr default])

theorem patternMemberBindings_walk (members : List PatternMember) :
    Walk (members.map .patternMember) (patternMemberBindings category members) := by
  match members with
  | [] => exact .nil
  | .property key value span :: rest =>
    rw [patternMemberBindings]
    exact .enter (.skip _ (patternBindings_walk value)) (patternMemberBindings_walk rest)

theorem patternElementBindings_walk (elements : List (Option Pattern)) :
    Walk (elements.reduceOption.map .pattern) (patternElementBindings category elements) := by
  match elements with
  | [] => exact .nil
  | none :: rest =>
    rw [patternElementBindings]
    exact patternElementBindings_walk rest
  | some pattern :: rest =>
    rw [patternElementBindings]
    exact (patternBindings_walk pattern).append (patternElementBindings_walk rest)

theorem restBindings_walk (rest : Option Pattern) :
    Walk (rest.toList.map .pattern) (restBindings category rest) := by
  match rest with
  | none => exact .nil
  | some pattern =>
    rw [restBindings]
    exact patternBindings_walk pattern

end

theorem typeBindings_walk (type : TypeOutline) : Walk [.type type] (type.bindings category) := by
  cases type with
  | other => exact .none _
  | literal members =>
    refine .parts (.flatMap (fun outline => ?_) members)
    cases outline with
    | property key => exact .parts (.name category (.key key))
    | other => exact .none _

end Patterns

mutual

/-- The properties that a call defines are found on a walk through it. -/
theorem definedProps_walk (expr : Expr) : Walk [.expr expr] expr.definedProps := by
  unfold Expr.definedProps
  split
  next callee types arguments span =>
    split
    · exact .parts (.pass ((Walk.flatMap (typeBindings_walk .prop) types).append
        (argumentBindings_walk .prop arguments)))
    · split
      · exact .parts (.pass (.skip _ (firstDefinedProps_walk arguments)))
      · exact .none _
  next wrapper inner span => exact .parts (definedProps_walk inner)
  next => exact .none _

theorem firstDefinedProps_walk (arguments : List Element) :
    Walk (arguments.filterMap Element.node?) (firstDefinedProps arguments) := by
  match arguments with
  | .value value :: later =>
    rw [firstDefinedProps]
    exact .first (definedProps_walk value) (later.filterMap Element.node?)
  | [] => exact .nil
  | .spread _ _ :: _ => exact .none _
  | .hole :: _ => exact .none _

end

theorem declaratorBindings_walk (declarator : Declarator) :
    Walk [.declarator declarator] declarator.setupBindings := by
  obtain ⟨pattern, initial, span⟩ := declarator
  exact .parts ((patternBindings_walk .setup pattern).append (.toList definedProps_walk initial))

theorem declaredName_walk (name : Option Identifier) (later : List Node) :
    Walk (name.toList.map .word ++ later) (name.toList.map (·.binding .setup)) := by
  cases name with
  | none => exact .none later
  | some identifier => exact .first (.name .setup (.word identifier)) later

/-- What a statement declares is found on a walk through it. -/
theorem setupBindings_walk (statement : Statement) :
    Walk [.statement statement] statement.setupBindings := by
  match statement with
  | .variables declarators _ => exact .parts (.flatMap declaratorBindings_walk declarators)
  | .function name body _ => exact .parts (declaredName_walk name _)
  | .classDeclaration name body _ => exact .parts (declaredName_walk name _)
  | .expression value _ => exact .parts (definedProps_walk value)
  | .returns _ _ => exact .none _
  | .exportDefault _ _ => exact .none _
  | .other _ => exact .none _

theorem returned_walk (category : Category) (statement : Statement) :
    Walk [.statement statement] (statement.returned?.elim [] (memberBindings category)) := by
  unfold Statement.returned?
  split
  next value span => exact .parts (members?_walk category value)
  next => exact .none _

theorem findReturned_walk (category : Category) (body : List Statement) :
    Walk (body.map .statement)
      ((body.findSome? Statement.returned?).elim [] (memberBindings category)) := by
  induction body with
  | nil => exact .nil
  | cons statement body ih =>
    rw [List.findSome?_cons]
    split
    next members returned =>
      rw [← returned]
      exact .first (returned_walk category statement) (body.map .statement)
    next => exact .pass ih

theorem returned?_walk (category : Category) (function : Expr) :
    Walk [.expr function] (function.returned?.elim [] (memberBindings category)) := by
  apply Walk.of_unwrap
  unfold Expr.returned?
  split
  next body span unwrapped =>
    rw [unwrapped]
    exact .parts (findReturned_walk category body)
  next body span unwrapped =>
    rw [unwrapped]
    exact .parts (findReturned_walk category body)
  next value span unwrapped =>
    rw [unwrapped]
    exact .parts (members?_walk category value)
  next => exact .none _

/-- What an option names is found on a walk through its value. -/
theorem optionBindings_walk (name : String) (value : Expr) :
    Walk [.expr value] (optionBindings name value) := by
  unfold optionBindings
  split
  · exact members?_walk .component value
  · exact literalBindings_walk .prop value
  · exact returned?_walk .setup value
  · exact returned?_walk .data value
  · exact groupBindings_walk .computed value
  · exact groupBindings_walk .method value
  · exact .none _

/-- A value that is also the key is a word, which no option looks into. -/
theorem optionBindings_of_isAlso {key : Key} {value : Expr} (also : key.isAlso value = true)
    (name : String) : optionBindings name value = [] := by
  cases value with
  | identifier word =>
    unfold optionBindings
    split <;> rfl
  | _ => cases also

theorem memberOptions_walk (member : Member) : Walk [.member member] member.optionBindings := by
  unfold Member.optionBindings
  split
  next key value span =>
    by_cases also : (Key.identifier key).isAlso value = true
    · rw [optionBindings_of_isAlso also]
      exact .none _
    · apply Walk.parts
      simp only [Node.children, Member.children, also]
      exact .pass (optionBindings_walk key.name value)
  next => exact .none _

/-- What the options of an object name is found on a walk through it. -/
theorem options_walk (expr : Expr) :
    Walk [.expr expr] ((expr.members?.getD []).flatMap Member.optionBindings) := by
  apply Walk.of_unwrap
  unfold Expr.members?
  split
  next members span unwrapped =>
    rw [unwrapped]
    exact .parts (.flatMap memberOptions_walk members)
  next => exact .none _

theorem descriptor_walk (expr : Expr) :
    Walk [.expr expr] ((expr.descriptor?.getD []).flatMap Member.optionBindings) := by
  apply Walk.of_unwrap
  unfold Expr.descriptor?
  split
  next members span unwrapped =>
    rw [unwrapped]
    exact .parts (.flatMap memberOptions_walk members)
  next callee types first later span unwrapped =>
    rw [unwrapped]
    have gone := (options_walk first).first (later.filterMap Element.node?)
    exact .parts (.pass (.skip _ gone))
  next => exact .none _

/-- What the default export names is found on a walk through the script. -/
theorem defaultExport_walk (statements : List Statement) :
    Walk (statements.map .statement)
      ((defaultExport? statements).elim [] DefaultExport.bindings) := by
  unfold defaultExport?
  induction statements with
  | nil => exact .nil
  | cons statement statements ih =>
    rw [List.findSome?_cons]
    split
    next exported found =>
      split at found
      next value span =>
        cases found
        refine .first (.parts ?_) (statements.map .statement)
        cases exported with
        | expression value => exact descriptor_walk value
        | _ => exact .none _
      next => cases found
    next => exact .pass ih

/-- Both analyses are walks along the statements of a script. -/
theorem outlineBindings_walk (setup : Bool) (statements : List Statement) :
    Walk (statements.map .statement) (outlineBindings setup statements) := by
  unfold outlineBindings
  split
  · exact .flatMap setupBindings_walk statements
  · exact defaultExport_walk statements

/-- A name ends inside a part. -/
def Node.Covers (node : Node) (binding : Binding) : Prop :=
  node.span.start < binding.position ∧ binding.position ≤ node.span.stop

/-- Names end one after the other, each inside one of the parts. -/
structure InOrder (nodes : List Node) (bindings : List Binding) : Prop where
  covered : ∀ binding ∈ bindings, ∃ node ∈ nodes, node.Covers binding
  increasing : bindings.Pairwise fun first second => first.position < second.position

namespace InOrder

variable {node : Node} {nodes : List Node}

theorem nil : InOrder nodes [] := ⟨fun _ member => absurd member List.not_mem_nil, .nil⟩

/-- Names of a node in front of others come in order with the names of these. -/
theorem cons {first later : List Binding} (here : InOrder [node] first)
    (before : ∀ other ∈ nodes, node.EndsBefore other) (rest : InOrder nodes later) :
    InOrder (node :: nodes) (first ++ later) := by
  have inside : ∀ binding ∈ first, node.Covers binding := by
    intro binding member
    obtain ⟨other, among, covers⟩ := here.covered binding member
    rwa [List.mem_singleton.1 among] at covers
  refine ⟨fun binding member => ?_, List.pairwise_append.2 ⟨here.increasing, rest.increasing, ?_⟩⟩
  · rcases List.mem_append.1 member with member | member
    · exact ⟨node, .head _, inside binding member⟩
    · obtain ⟨other, among, covers⟩ := rest.covered binding member
      exact ⟨other, .tail _ among, covers⟩
  · intro binding member next among
    obtain ⟨other, later, covers⟩ := rest.covered next among
    calc binding.position
        ≤ node.span.stop := (inside binding member).2
      _ ≤ other.span.start := before other later
      _ < next.position := covers.1

/-- The one name of a node is in order. -/
theorem single {identifier : Identifier} (category : Category)
    (named : node.name? = some identifier) (solid : node.span.start < node.span.stop) :
    InOrder [node] [identifier.binding category] := by
  obtain ⟨same, -⟩ := Node.cases_of_name? named
  refine ⟨fun binding member => ?_, List.pairwise_singleton _ _⟩
  rw [List.mem_singleton.1 member]
  have stop : (identifier.binding category).position = node.span.stop := congrArg Span.stop same
  exact ⟨node, .head _, stop ▸ solid, Nat.le_of_eq stop⟩

/-- The names of the parts of a node are in order inside it. -/
theorem within {bindings : List Binding}
    (inside : ∀ child ∈ node.children, node.span.contains child.span)
    (parts : InOrder node.children bindings) : InOrder [node] bindings := by
  refine ⟨fun binding member => ?_, parts.increasing⟩
  obtain ⟨child, among, after, before⟩ := parts.covered binding member
  obtain ⟨start, stop⟩ := Span.contains_iff.1 (inside child among)
  exact ⟨node, .head _, Nat.lt_of_le_of_lt start after, Nat.le_trans before stop⟩

end InOrder

namespace Walk

variable {nodes : List Node} {bindings : List Binding}

/-- Along well placed parts that follow each other, the names follow each other. -/
theorem inOrder (walk : Walk nodes bindings) (ordered : nodes.Pairwise Node.EndsBefore)
    (placed : ∀ node ∈ nodes, node.WellPlaced) : InOrder nodes bindings := by
  induction walk with
  | nil => exact .nil
  | pass later ih =>
    obtain ⟨before, ordered⟩ := List.pairwise_cons.1 ordered
    obtain ⟨-, placed⟩ := List.forall_mem_cons.1 placed
    exact .cons .nil before (ih ordered placed)
  | take category named later ih =>
    obtain ⟨before, ordered⟩ := List.pairwise_cons.1 ordered
    obtain ⟨⟨-, -, solid, -⟩, placed⟩ := List.forall_mem_cons.1 placed
    exact .cons (.single category named (solid _ named)) before (ih ordered placed)
  | enter inside later ihInside ihLater =>
    obtain ⟨before, ordered⟩ := List.pairwise_cons.1 ordered
    obtain ⟨⟨contained, apart, -, parts⟩, placed⟩ := List.forall_mem_cons.1 placed
    exact .cons (.within contained (ihInside apart parts)) before (ihLater ordered placed)

/-- Every name is that of a part on the way. -/
theorem exists_part (walk : Walk nodes bindings) {binding : Binding} (member : binding ∈ bindings) :
    ∃ node ∈ nodes, ∃ part, node.Holds part ∧
      ∃ identifier category, part.name? = some identifier ∧
        binding = identifier.binding category := by
  induction walk with
  | nil => cases member
  | pass later ih =>
    obtain ⟨node, among, found⟩ := ih member
    exact ⟨node, .tail _ among, found⟩
  | @take node nodes identifier bindings category named later ih =>
    rcases List.mem_cons.1 member with rfl | member
    · exact ⟨node, .head _, node, .refl, identifier, category, named, rfl⟩
    · obtain ⟨other, among, found⟩ := ih member
      exact ⟨other, .tail _ among, found⟩
  | @enter node nodes inner bindings inside later ihInside ihLater =>
    rcases List.mem_append.1 member with member | member
    · obtain ⟨child, among, part, holds, found⟩ := ihInside member
      exact ⟨node, .head _, part, .head among holds, found⟩
    · obtain ⟨other, among, found⟩ := ihLater member
      exact ⟨other, .tail _ among, found⟩

end Walk

/-- A name that is empty is that of a word that is no key. -/
theorem exists_word_of_nameless {setup : Bool} {statements : List Statement} {binding : Binding}
    (member : binding ∈ outlineBindings setup statements) (nameless : binding.name = "") :
    ∃ statement ∈ statements, ∃ part word category, (Node.statement statement).Holds part ∧
      part.word? = some word ∧ binding = word.binding category := by
  obtain ⟨node, among, part, holds, identifier, category, named, rfl⟩ :=
    (outlineBindings_walk setup statements).exists_part member
  obtain ⟨statement, here, rfl⟩ := List.mem_map.1 among
  obtain filled | word := (Node.cases_of_name? named).2
  · exact absurd nameless filled
  · exact ⟨statement, here, part, identifier, category, holds, word, rfl⟩

/-- Where the words of a script have names, so has all that is found in it. -/
theorem outlineBindings_named {setup : Bool} {statements : List Statement}
    (named : ∀ statement ∈ statements, (Node.statement statement).WordsNamed) :
    ∀ binding ∈ outlineBindings setup statements, binding.name ≠ "" := by
  intro binding member nameless
  obtain ⟨statement, here, part, word, category, holds, is, rfl⟩ :=
    exists_word_of_nameless member nameless
  exact named statement here part holds word is nameless

/-- Where the extents of a script are well placed, its names end one after the other, so none is
found twice; and a name that is empty is that of a word that is no key. -/
theorem outlineBindings_inOrder (setup : Bool) (statements : List Statement) (extent : Span)
    (placed : (Node.script statements extent).WellPlaced) :
    (outlineBindings setup statements).Pairwise
        (fun first second => first.position < second.position) ∧
      ∀ binding ∈ outlineBindings setup statements, binding.name = "" →
        ∃ part word category, (Node.script statements extent).Holds part ∧
          part.word? = some word ∧ binding = word.binding category := by
  have walk := outlineBindings_walk setup statements
  obtain ⟨-, ordered, -, parts⟩ := placed
  refine ⟨(walk.inOrder ordered parts).increasing, fun binding member nameless => ?_⟩
  obtain ⟨statement, here, part, word, category, holds, is, rfl⟩ :=
    exists_word_of_nameless member nameless
  exact ⟨part, word, category, .head (List.mem_map_of_mem here) holds, is, rfl⟩

/-- The names of nested patterns and of defined properties in one declaration. -/
theorem outlineBindings_inOrder_nested : ∃ statements,
    statements = (read ⟨true, true⟩ ("const [a = f(['x']), [b], ...c] = " ++
      "withDefaults(defineProps(['d', (e), 'g']), h)").toList).statements ∧
    (Node.script statements ⟨0, 79⟩).WellPlaced ∧
    (outlineBindings true statements).map (·.position) = [8, 23, 30, 63, 73] ∧
    (outlineBindings true statements).Pairwise
      (fun first second => first.position < second.position) := by
  refine ⟨_, rfl, ?_⟩
  have placed : (Node.script (read ⟨true, true⟩ ("const [a = f(['x']), [b], ...c] = " ++
      "withDefaults(defineProps(['d', (e), 'g']), h)").toList).statements ⟨0, 79⟩).WellPlaced :=
    Node.wellPlaced_of_checkPlaced (show Node.checkPlaced 8 _ = true by decide +kernel)
  exact ⟨placed, by decide +kernel, (outlineBindings_inOrder true _ ⟨0, 79⟩ placed).1⟩

/-- A word whose only escape denotes no letter is left without a name, and is found all the same. -/
theorem outlineBindings_nameless :
    (Node.script (read ⟨true, true⟩ "var \\u0021".toList).statements ⟨0, 10⟩).WellPlaced ∧
      (analyze read ⟨true, true⟩ true "var \\u0021".toList).bindings = [⟨"", .setup, 10, none⟩] :=
  ⟨Node.wellPlaced_of_checkPlaced (show Node.checkPlaced 6 _ = true by decide +kernel),
    by decide +kernel⟩

end SfcIndex.Script
