import SfcIndex.Proofs.Bytes.Attributes
import SfcIndex.Proofs.Bytes.Scan
import SfcIndex.Proofs.Markup.Values

/-! # The region tree by bytes

A text is read tag by tag, by its bytes, with the open elements on one stack that has the document
at its bottom. The document is never taken from the stack, the attributes of a tag are always there,
and the tree is the one that the text describes (`Bytes.parse_eq`).
-/

namespace SfcIndex.Bytes

open Text Markup

/-- The opening of the node that stands for the whole document. -/
def documentOpening : Opening := ⟨0, Region.documentName, [], ⟨0, 0⟩⟩

/-- A tree under construction: the open elements, innermost first and the document last, and the
number of the next element. -/
structure Stack where
  elements : List OpenElement
  nextId : Nat

namespace Stack

def start : Stack := ⟨[⟨documentOpening, []⟩], 1⟩

/-- The region becomes the last child of the innermost open element. -/
def append (stack : Stack) (region : Region) : Except Fault Stack :=
  match stack.elements with
  | [] => .error .noneOpen
  | inner :: outer =>
    .ok { stack with elements := { inner with finished := region :: inner.finished } :: outer }

/-- An element is opened inside the innermost open one. -/
def push (stack : Stack) (opening : Opening) : Except Fault Stack :=
  match stack.elements with
  | [] => .error .noneOpen
  | inner :: outer => .ok { stack with elements := ⟨opening, []⟩ :: inner :: outer }

/-- Ends the innermost open element. -/
def closeInnermost (stack : Stack) (ending : Ending) : Except Fault Stack :=
  match stack.elements with
  | [] => .error .noneOpen
  | inner :: outer => { stack with elements := outer }.append (inner.close ending)

/-- Ends the innermost open elements without closing tags, as many as told. -/
def abandon : Nat → Stack → Except Fault Stack
  | 0, stack => .ok stack
  | count + 1, stack => do abandon count (← stack.closeInnermost .unclosed)

/-- The tree after an opening or self-closing tag. -/
def openTag (text : List Char) (stack : Stack) (tag : ScannedTag) : Except Fault Stack := do
  let written ← covered text tag.attributeSpan
  let attributes ← attributesFrom written tag.attributeSpan.start 0
  let opening : Opening := ⟨stack.nextId, tag.name, attributes, tag.span⟩
  let numbered := { stack with nextId := stack.nextId + 1 }
  if tag.kind = .selfClosing then numbered.append (.node opening .selfClosing [])
  else numbered.push opening

/-- The tree after a closing tag, which closes the nearest open element of its name above the
document. -/
def closeTag (stack : Stack) (tag : ScannedTag) : Except Fault Stack :=
  match stack.elements.dropLast.findIdx? fun element => sameName element.opening.name tag.name with
  | none => .ok stack
  | some inside => do (← stack.abandon inside).closeInnermost (.closedBy tag.span)

/-- The tree after one more tag. -/
def addTag (text : List Char) (stack : Stack) (tag : ScannedTag) : Except Fault Stack :=
  if tag.kind = .closing then stack.closeTag tag else stack.openTag text tag

/-- The document of the given length in bytes, all open elements in it ended. -/
def finish (stack : Stack) (length : Nat) : Except Fault Region := do
  let ended ← stack.abandon (← difference stack.elements.length 1)
  match ended.elements with
  | [] => .error .noneOpen
  | document :: _ => return document.close (.closedBy ⟨length, length⟩)

end Stack

/-- The index from which scanning goes on after a tag. -/
def resume (rawTags : List String) (text : List Char) (tag : ScannedTag) (next : Nat) :
    Except Fault Nat :=
  if tag.kind = .opening && rawTags.any (sameName · tag.name) then skipRaw text tag.name.toList next
  else .ok next

/-- The scan does not go back behind a tag. -/
theorem le_of_resume {rawTags : List String} {text : List Char} {tag : ScannedTag}
    {next after : Nat} (resumed : resume rawTags text tag next = .ok after) : next ≤ after := by
  unfold resume at resumed
  split at resumed
  next => exact le_of_skipRaw resumed
  next => exact (Except.ok.inj resumed).le

/-- The tree after all tags from an index on. -/
def readTags (rawTags : List String) (text : List Char) (stack : Stack) (index : Nat) :
    Except Fault Stack :=
  match _read : nextTag? text index with
  | .error fault => .error fault
  | .ok none => .ok stack
  | .ok (some (tag, next)) =>
    match _resumed : resume rawTags text tag next with
    | .error fault => .error fault
    | .ok after => do readTags rawTags text (← stack.addTag text tag) after
  termination_by (encode text).length - index
  decreasing_by
    have := lt_of_nextTag? _read
    have := le_of_resume _resumed
    omega

/-- The region tree of a text. -/
def parse (rawTags : List String) (text : List Char) : Except Fault Region := do
  let stack ← readTags rawTags text .start 0
  stack.finish (← toOffset (width text))

/-- The open elements of a tree, on top of the document. -/
def stackOf (builder : Builder) : Stack :=
  ⟨builder.opened ++ [⟨documentOpening, builder.finished⟩], builder.nextId⟩

section

variable {builder : Builder}

theorem append_stackOf (builder : Builder) (region : Region) :
    (stackOf builder).append region = .ok (stackOf (builder.append region)) := by
  obtain ⟨opened, finished, nextId⟩ := builder
  cases opened <;> rfl

theorem push_stackOf (builder : Builder) (opening : Opening) :
    (stackOf builder).push opening =
      .ok (stackOf { builder with opened := ⟨opening, []⟩ :: builder.opened }) := by
  obtain ⟨opened, finished, nextId⟩ := builder
  cases opened <;> rfl

/-- The innermost opening is closed on the stack as it is in the tree. -/
theorem closeInnermost_stackOf (some : builder.opened ≠ []) (ending : Ending) :
    (stackOf builder).closeInnermost ending = .ok (stackOf (builder.closeInnermost ending)) := by
  obtain ⟨opened, finished, nextId⟩ := builder
  cases opened with
  | nil => exact absurd rfl some
  | cons inner outer => exact append_stackOf ⟨outer, finished, nextId⟩ (inner.close ending)

/-- Ending elements that are open leaves the document on the stack. -/
theorem abandon_stackOf {count : Nat} (open' : count ≤ builder.opened.length) :
    (stackOf builder).abandon count = .ok (stackOf (builder.abandon count)) := by
  induction count generalizing builder with
  | zero => rfl
  | succ count ih =>
    have some : builder.opened ≠ [] := by
      intro none
      rw [none] at open'
      cases open'
    have fewer := builder.length_opened_closeInnermost .unclosed
    rw [Stack.abandon, closeInnermost_stackOf some, Builder.abandon]
    exact ih (by omega)

/-- A closing tag does to the stack what it does to the tree. -/
theorem closeTag_stackOf (builder : Builder) (tag : Tag) :
    (stackOf builder).closeTag (scanned tag) = .ok (stackOf (builder.closeTag tag)) := by
  have above : (stackOf builder).elements.dropLast = builder.opened := List.dropLast_concat
  rw [Stack.closeTag, above, Builder.closeTag, scanned_name]
  cases found : builder.opened.findIdx? fun element =>
      sameName element.opening.name tag.name with
  | none => rfl
  | some inside =>
    obtain ⟨named, -⟩ := List.findIdx?_eq_some_iff_getElem.1 found
    have left := builder.length_opened_abandon inside
    have some : (builder.abandon inside).opened ≠ [] := by
      apply List.ne_nil_of_length_pos
      omega
    dsimp only
    rw [abandon_stackOf named.le]
    exact closeInnermost_stackOf some _

/-- An opening tag does to the stack what it does to the tree. -/
theorem openTag_stackOf {text : List Char} {tag : Tag} (opens : tag.kind ≠ .closing)
    (written : tag.attributeSpan.slice? text = some tag.attributeText)
    (fits : tag.attributeSpan.start + width tag.attributeText ≤ Offset.limit) :
    (stackOf builder).openTag text (scanned tag) = .ok (stackOf (builder.grow tag)) := by
  have taken : covered text tag.attributeSpan = .ok tag.attributeText := by
    rw [covered, written]
  have split : attributesFrom tag.attributeText tag.attributeSpan.start 0 =
      .ok (Attribute.listed tag.attributeSpan.start tag.attributeText) :=
    attributesFrom_eq fits (On.atStart _)
  rw [Stack.openTag, scanned_attributeSpan, taken]
  dsimp only [bind, Except.bind]
  rw [split]
  dsimp only
  rw [scanned_kind]
  by_cases single : tag.kind = .selfClosing
  · rw [if_pos single, Builder.grow, single]
    exact append_stackOf { builder with nextId := builder.nextId + 1 } _
  · have kind : tag.kind = .opening := by
      cases kind : tag.kind with
      | opening => rfl
      | selfClosing => exact absurd kind single
      | closing => exact absurd kind opens
    rw [if_neg single, Builder.grow, kind]
    exact push_stackOf { builder with nextId := builder.nextId + 1 } _

/-- A tag does to the stack what it does to the tree. -/
theorem addTag_stackOf {text : List Char} {tag : Tag}
    (written : tag.attributeSpan.slice? text = some tag.attributeText)
    (fits : tag.attributeSpan.start + width tag.attributeText ≤ Offset.limit) :
    (stackOf builder).addTag text (scanned tag) = .ok (stackOf (builder.grow tag)) := by
  by_cases closes : tag.kind = .closing
  · have grown : builder.grow tag = builder.closeTag tag := by rw [Builder.grow, closes]
    rw [grown]
    exact (if_pos closes).trans (closeTag_stackOf builder tag)
  · exact (if_neg closes).trans (openTag_stackOf closes written fits)

/-- The stack is finished as the tree is. -/
theorem finish_stackOf (builder : Builder) (length : Nat) :
    (stackOf builder).finish length = .ok (builder.finish length) := by
  have size : (stackOf builder).elements.length = builder.opened.length + 1 := by
    simp [stackOf]
  rw [Stack.finish, size, difference_eq (by omega)]
  dsimp only [bind, Except.bind]
  rw [Nat.add_sub_cancel, abandon_stackOf (Nat.le_refl _)]
  dsimp only [stackOf]
  rw [builder.opened_abandon_all]
  rfl

end

section

variable {text : List Char} {cursor next : Cursor} {tag : Tag}

/-- The attributes of a tag are there in the text. -/
theorem slice?_attributeSpan (on : On text cursor) (found : cursor.nextTag? = some (tag, next)) :
    tag.attributeSpan.slice? text = some tag.attributeText ∧
      tag.attributeSpan.start + width tag.attributeText ≤ width text := by
  obtain ⟨before, whole, offset⟩ := on
  obtain ⟨site⟩ := Cursor.nextTag?_site found
  obtain ⟨start, start_eq, front, after, rest_eq, front_eq⟩ := site.standsAt_attributeText
  have stands : StandsAt text tag.attributeSpan.start tag.attributeText := by
    refine ⟨before ++ front, after, ?_, ?_⟩
    · rw [whole, rest_eq, List.append_assoc]
    · rw [width_append, start_eq, front_eq, offset]
  refine ⟨?_, stands.stop_le⟩
  have slice := standsAt_iff_slice?.1 stands
  rwa [← site.attributeStop_eq] at slice

/-- The scan goes on behind a tag without a fault. -/
theorem resume_eq (on : On text next) (rawTags : List String) (tag : Tag) :
    resume rawTags text (scanned tag) next.offset =
      .ok (Region.resume rawTags tag next).offset := by
  rw [resume, Region.resume, scanned_kind, scanned_name]
  by_cases raw : (tag.kind = .opening && rawTags.any (sameName · tag.name)) = true
  · rw [if_pos raw, if_pos raw]
    exact skipRaw_eq on
  · rw [if_neg raw, if_neg raw]

/-- Reading on by bytes adds the tags that are left. -/
theorem readTags_eq (fits : width text ≤ Offset.limit) (on : On text cursor)
    (rawTags : List String) (builder : Builder) :
    readTags rawTags text (stackOf builder) cursor.offset =
      .ok (stackOf ((Region.tags rawTags cursor).foldl Builder.grow builder)) := by
  fun_induction Region.tags rawTags cursor generalizing builder with
  | case1 cursor none =>
    have missed : nextTag? text cursor.offset = .ok Option.none := by
      rw [nextTag?_eq fits on, none]
      rfl
    rw [readTags]
    split
    next fault read => rw [missed] at read; cases read
    next => rfl
    next other after read => rw [missed] at read; cases read
  | case2 cursor tag next found ih =>
    have scan : nextTag? text cursor.offset = .ok (some (scanned tag, next.offset)) := by
      rw [nextTag?_eq fits on, found]
      rfl
    obtain ⟨written, inside⟩ := slice?_attributeSpan on found
    have onNext := on.afterTag found
    have resumed := resume_eq onNext rawTags tag
    have added : (stackOf builder).addTag text (scanned tag) = .ok (stackOf (builder.grow tag)) :=
      addTag_stackOf written (by omega)
    rw [readTags]
    split
    next fault read => rw [scan] at read; cases read
    next read => rw [scan] at read; cases read
    next other after read =>
      rw [scan] at read
      cases read
      split
      next fault failed => rw [resumed] at failed; cases failed
      next place going =>
        rw [resumed] at going
        cases going
        rw [added]
        exact ih (onNext.resume rawTags tag) (builder.grow tag)

/-- Reading a text by bytes gives its tree. -/
theorem parse_eq (rawTags : List String) (fits : width text ≤ Offset.limit) :
    parse rawTags text = .ok (Region.tree rawTags text) := by
  have read : readTags rawTags text .start 0 = _ :=
    readTags_eq fits (On.atStart text) rawTags .start
  rw [parse, toOffset_eq fits, read]
  exact finish_stackOf _ _

end

end SfcIndex.Bytes
