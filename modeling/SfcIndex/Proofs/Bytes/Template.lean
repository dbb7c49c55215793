import SfcIndex.Proofs.Bytes.Tree
import SfcIndex.Proofs.Table.Template

/-! # The names of a template by bytes

The identifiers of a value are searched by its bytes. The value of an attribute is always there in
the text, and the names are those that the template declares (`Bytes.templateBindings_eq`).
-/

namespace SfcIndex.Bytes

open Text Markup

/-- The index where a run of word bytes ends. -/
def runStop (bytes : List UInt8) (index : Nat) : Except Fault Nat :=
  if index < bytes.length then do
    if onBytes isWordChar (← byteAt bytes index) then runStop bytes (index + 1) else return index
  else return index
  termination_by bytes.length - index

/-- How the names of a value are bound: where the value starts, the category of the names and where
they are seen. -/
structure Naming where
  base : Nat
  category : Category
  scope : Span

/-- The binding for a run of word bytes, which is none when the run starts with a digit. -/
def Naming.ofRun (naming : Naming) (text : List Char) (start stop : Nat) :
    Except Fault (Option Binding) := do
  if onBytes Char.isDigit (← byteAt (encode text) start) then return none
  else
    let name ← textIn text start stop
    let position ← sum naming.base (← toOffset start)
    return some
      { name := String.ofList name, category := naming.category, position,
        scope := some naming.scope }

section

variable {bytes : List UInt8} {byte : UInt8} {index stop : Nat}

/-- What the search for the end of a run does with one byte. -/
theorem runStop_step (read : byteAt bytes index = .ok byte) :
    runStop bytes index =
      if onBytes isWordChar byte then runStop bytes (index + 1) else .ok index := by
  rw [runStop, if_pos (lt_of_byteAt read), read]
  rfl

/-- A run of word bytes does not end in front of its start. -/
theorem le_of_runStop (found : runStop bytes index = .ok stop) : index ≤ stop := by
  fun_induction runStop bytes index with
  | case1 index inside ih =>
    obtain ⟨byte, -, found⟩ := Offset.exists_of_bind found
    split at found
    next => exact Nat.le_of_succ_le (ih found)
    next => exact (Except.ok.inj found).le
  | case2 index outside => exact (Except.ok.inj found).le

/-- A run that starts with a word byte is not empty. -/
theorem lt_of_runStop (read : byteAt bytes index = .ok byte) (word : onBytes isWordChar byte = true)
    (found : runStop bytes index = .ok stop) : index < stop := by
  rw [runStop_step read, if_pos word] at found
  exact le_of_runStop found

end

/-- The bindings for the identifiers of a text, from an index on. -/
def Naming.identifiers (naming : Naming) (text : List Char) (index : Nat) :
    Except Fault (List Binding) :=
  if index < (encode text).length then
    match _read : byteAt (encode text) index with
    | .error fault => .error fault
    | .ok byte =>
      if onBytes isWordChar byte then
        match _ends : runStop (encode text) index with
        | .error fault => .error fault
        | .ok stop => do
          let found ← naming.ofRun text index stop
          return found.toList ++ (← naming.identifiers text stop)
      else naming.identifiers text (index + 1)
  else return []
  termination_by (encode text).length - index
  decreasing_by
    · have := lt_of_runStop _read (by assumption) _ends
      omega
    · omega

/-- The characters of words are below 128. -/
theorem isAscii_of_isWordChar {c : Char} (word : isWordChar c = true) : IsAscii c := by
  have codes := toNat_of_isWordChar word
  unfold IsAscii
  omega

/-- The characters of words are recognised by their bytes. -/
theorem follows_isWordChar : Follows (onBytes isWordChar) isWordChar :=
  follows_onBytes fun _ => isAscii_of_isWordChar

/-- Digits are recognised by their bytes. -/
theorem follows_isDigit : Follows (onBytes Char.isDigit) Char.isDigit := by
  apply follows_onBytes
  intro c digit
  apply isAscii_of_isWordChar
  simp [isWordChar, Char.isAlphanum, digit]

section

variable {text run rest : List Char} {index : Nat}

/-- A run of word characters ends among the bytes where it ends in the text. -/
theorem runStop_eq (on : On text ⟨index, rest⟩) :
    runStop (encode text) index = .ok (index + width (rest.takeWhile isWordChar)) := by
  induction rest generalizing index with
  | nil =>
    rw [runStop, if_neg on.not_lt_of_nil]
    rfl
  | cons c rest ih =>
    obtain ⟨byte, member, read⟩ := on.exists_firstByte
    rw [runStop_step read, follows_isWordChar c byte member]
    by_cases word : isWordChar c = true
    · have onRest := on.tail
      rw [utf8Size_ascii (isAscii_of_isWordChar word)] at onRest
      rw [if_pos word, ih onRest, List.takeWhile_cons_of_pos word, width_cons,
        utf8Size_ascii (isAscii_of_isWordChar word), Nat.add_assoc]
    · rw [if_neg word, List.takeWhile_cons_of_neg word]
      rfl

namespace Naming

/-- The binding for a run of word characters at an index. -/
def binding (naming : Naming) (place : Nat × List Char) : Binding :=
  { name := String.ofList place.2, category := naming.category,
    position := naming.base + place.1, scope := some naming.scope }

variable {naming : Naming}

/-- A run of word characters gives a binding, without a fault, when it is an identifier. -/
theorem ofRun_eq (on : On text ⟨index, run ++ rest⟩) (some : run ≠ [])
    (fits : naming.base + width text ≤ Offset.limit) :
    naming.ofRun text index (index + width run) =
      .ok (if Template.isIdentifier run then .some (naming.binding (index, run)) else none) := by
  have size := on.offset_add_width
  obtain ⟨c, more, rfl⟩ := List.exists_cons_of_ne_nil some
  obtain ⟨byte, member, read⟩ := on.exists_firstByte
  have first : Template.isIdentifier (c :: more) = !c.isDigit := rfl
  dsimp only at size
  rw [ofRun, read, first]
  dsimp only [bind, Except.bind]
  rw [follows_isDigit c byte member]
  by_cases digit : c.isDigit = true
  · rw [if_pos digit, digit]
    rfl
  · rw [if_neg digit, on.textIn_eq, toOffset_eq (by omega)]
    dsimp only
    rw [sum_eq (by omega), Bool.eq_false_iff.2 digit]
    rfl

/-- What the search for identifiers does at a byte. -/
theorem identifiers_step {byte : UInt8} (read : byteAt (encode text) index = .ok byte) :
    naming.identifiers text index =
      if onBytes isWordChar byte then do
        let stop ← runStop (encode text) index
        let found ← naming.ofRun text index stop
        return found.toList ++ (← naming.identifiers text stop)
      else naming.identifiers text (index + 1) := by
  rw [identifiers, if_pos (lt_of_byteAt read)]
  split
  next fault failed =>
    rw [read] at failed
    cases failed
  next other same =>
    rw [read] at same
    cases same
    split
    next =>
      split
      next fault ends =>
        rw [ends]
        rfl
      next stop ends =>
        rw [ends]
        rfl
    next => rfl

/-- Bytes that are in no word are passed over. -/
theorem identifiers_skip {bytes tail : List UInt8}
    (drop : (encode text).drop index = bytes ++ tail)
    (others : ∀ byte ∈ bytes, onBytes isWordChar byte = false) :
    naming.identifiers text index = naming.identifiers text (index + bytes.length) := by
  induction bytes generalizing index with
  | nil => rfl
  | cons byte bytes ih =>
    have later : ∀ other ∈ bytes, onBytes isWordChar other = false :=
      fun other member => others other (List.mem_cons_of_mem _ member)
    rw [identifiers_step (byteAt_eq drop), others byte List.mem_cons_self,
      if_neg Bool.false_ne_true, ih (drop_succ_of_drop drop) later, List.length_cons,
      Nat.add_assoc, Nat.add_comm 1]

/-- The search by bytes finds the identifiers of a text. -/
theorem identifiers_eq (fits : naming.base + width text ≤ Offset.limit)
    (on : On text ⟨index, rest⟩) :
    naming.identifiers text index =
      .ok (((Template.wordRuns index rest).filter fun place => Template.isIdentifier place.2).map
        naming.binding) := by
  fun_induction Template.wordRuns index rest with
  | case1 index =>
    rw [identifiers, if_neg on.not_lt_of_nil]
    rfl
  | case2 index c rest word run ih =>
    obtain ⟨byte, member, read⟩ := on.exists_firstByte
    have onRun : On text ⟨index, run ++ rest.dropWhile isWordChar⟩ := by
      rw [List.cons_append, List.takeWhile_append_dropWhile]
      exact on
    have stop := runStop_eq on
    rw [List.takeWhile_cons_of_pos word] at stop
    rw [identifiers_step read, follows_isWordChar c byte member, if_pos word, stop]
    dsimp only [bind, Except.bind]
    rw [ofRun_eq onRun (List.cons_ne_nil _ _) fits]
    dsimp only
    rw [ih onRun.skip, List.filter_cons]
    dsimp only
    by_cases named : Template.isIdentifier run = true
    · rw [if_pos named, if_pos named]
      rfl
    · rw [if_neg named, if_neg named]
      rfl
  | case3 index c rest other ih =>
    have drop := on.drop
    dsimp only at drop
    rw [encode_cons] at drop
    have others : ∀ byte ∈ String.utf8EncodeChar c, onBytes isWordChar byte = false := by
      intro byte member
      rw [follows_isWordChar c byte member]
      exact Bool.eq_false_iff.2 other
    rw [identifiers_skip drop others, String.length_utf8EncodeChar, ih on.tail]

end Naming

end

/-- The bindings that an attribute of an element with the given span declares. -/
def attributeBindings (text : List Char) (scope : Span) (declaration : Attribute) :
    Except Fault (List Binding) :=
  match declaration.value with
  | none => return []
  | some value =>
    if declaration.key = "ref" then
      if value.text.isEmpty then return []
      else return [{ name := value.text, category := .ref, position := value.span.start }]
    else if declaration.key = "v-for" then do
      let (skipped, aliases) := Template.loopAliases (← covered text value.span)
      let base ← sum value.span.start (← toOffset skipped)
      Naming.identifiers ⟨base, .vForScope, scope⟩ aliases 0
    else if Template.isSlotKey declaration.key then do
      let written ← covered text value.span
      Naming.identifiers ⟨value.span.start, .slotScope, scope⟩ written 0
    else return []

/-- The bindings that an element declares, in the order of its attributes. -/
def elementBindings (text : List Char) (element : Region) : Except Fault (List Binding) := do
  return (← element.attributes.mapM (attributeBindings text element.span)).flatten

/-- The bindings of a template and all elements in it, in document order. -/
def templateBindings (text : List Char) (template : Region) : Except Fault (List Binding) := do
  return (← template.descendants.mapM (elementBindings text)).flatten

/-- The names of a text are found without a fault. -/
theorem scopedNames_eq {text : List Char} {base : Nat} (fits : base + width text ≤ Offset.limit)
    (category : Category) (scope : Span) :
    Naming.identifiers ⟨base, category, scope⟩ text 0 =
      .ok (Template.scopedNames text base category scope) :=
  Naming.identifiers_eq fits (On.atStart text)

section

variable {text : List Char}

/-- The names of an attribute are found without a fault. -/
theorem attributeBindings_eq (fits : width text ≤ Offset.limit) (scope : Span)
    {declaration : Attribute}
    (written : ∀ value, declaration.value = some value →
      value.span.slice? text = some value.text.toList) :
    attributeBindings text scope declaration = .ok (Template.attributeNames scope declaration) := by
  unfold attributeBindings Template.attributeNames
  cases is : declaration.value with
  | none => rfl
  | some value =>
    have slice := written value is
    have taken : covered text value.span = .ok value.text.toList := by rw [covered, slice]
    have inside := (standsAt_of_slice? slice).1.stop_le
    dsimp only
    split
    next => split <;> rfl
    next =>
      split
      next =>
        have part := (Template.loopAliases_standsAt value.text.toList).stop_le
        rw [taken]
        dsimp only [bind, Except.bind]
        rw [toOffset_eq (by omega)]
        dsimp only
        rw [sum_eq (by omega)]
        exact scopedNames_eq (by omega) _ _
      next =>
        split
        next =>
          rw [taken]
          exact scopedNames_eq (by omega) _ _
        next => rfl

/-- The value of an attribute is there in the text. -/
theorem slice?_value {rawTags : List String} {region : Region}
    (member : region ∈ (Region.tree rawTags text).children.flatMap Region.descendants)
    {found : Attribute} (carries : found ∈ region.attributes) {value : AttributeValue}
    (is : found.value = some value) : value.span.slice? text = some value.text.toList := by
  obtain ⟨stands, -⟩ := Region.value_standsAt member carries is
  obtain ⟨builder, tag, -, opening⟩ := Region.exists_tag_of_mem member
  rw [Region.attributes, opening] at carries
  have slice := standsAt_iff_slice?.1 stands
  rwa [← (Attribute.value_bounds carries is).1] at slice

/-- The names of an element are found without a fault. -/
theorem elementBindings_eq (fits : width text ≤ Offset.limit) {rawTags : List String}
    {element : Region}
    (member : element ∈ (Region.tree rawTags text).children.flatMap Region.descendants) :
    elementBindings text element = .ok (Template.elementNames element) := by
  have attributes : element.attributes.mapM (attributeBindings text element.span) =
      .ok (element.attributes.map (Template.attributeNames element.span)) := by
    apply Offset.mapM_eq_ok
    intro declaration carries
    apply attributeBindings_eq fits
    intro value is
    exact slice?_value member carries is
  rw [elementBindings, attributes, Template.elementNames, List.flatMap_def]
  rfl

/-- Collecting by bytes gives the names of a template. -/
theorem templateBindings_eq (fits : width text ≤ Offset.limit) {rawTags : List String}
    {template : Region} (member : template ∈ (Region.tree rawTags text).children) :
    templateBindings text template = .ok (Template.names template) := by
  have elements : template.descendants.mapM (elementBindings text) =
      .ok (template.descendants.map Template.elementNames) := by
    apply Offset.mapM_eq_ok
    intro element below
    exact elementBindings_eq fits (Template.mem_descendants_of_mem member below)
  rw [templateBindings, elements, Template.names, List.flatMap_def]
  rfl

end

end SfcIndex.Bytes
