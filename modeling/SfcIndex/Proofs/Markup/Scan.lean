import SfcIndex.Proofs.Markup.Document
import SfcIndex.Proofs.Text.Slice
import SfcIndex.Proofs.Markup.Tree

/-! # Scanning written documents

Each part of a written document is scanned as what it is, whatever text comes after it: text and
comments are passed over, tags are found with their attributes, and raw text is jumped over.
-/

namespace SfcIndex.Markup

open Text

/-- No character of a key is a blank. -/
theorem not_blank_of_isKeyChar {c : Char} (key : isKeyChar c = true) : isAsciiBlank c = false := by
  simp only [isKeyChar, Bool.not_eq_true', Bool.or_eq_false_iff] at key
  exact key.1.1.1.1.1

theorem ne_equals_of_isKeyChar {c : Char} (key : isKeyChar c = true) : c ≠ '=' := by
  simp only [isKeyChar, Bool.not_eq_true', Bool.or_eq_false_iff, decide_eq_false_iff_not] at key
  exact key.1.1.1.1.2

theorem quoteAfter_of_isKeyChar {c : Char} (key : isKeyChar c = true) :
    Attribute.quoteAfter none c = none := by
  simp only [isKeyChar, Bool.not_eq_true', Bool.or_eq_false_iff, decide_eq_false_iff_not] at key
  simp [Attribute.quoteAfter, key.1.1.1.2, key.1.1.2]

/-- The characters of a key do not close a tag. -/
theorem step_of_isKeyChar {c : Char} (key : isKeyChar c = true) :
    (CloseSearch.outside false).step c = .outside false ∧
      (CloseSearch.outside false).endsAt c = false := by
  have blank := not_blank_of_isKeyChar key
  simp only [isKeyChar, Bool.not_eq_true', Bool.or_eq_false_iff, decide_eq_false_iff_not] at key
  simp [CloseSearch.step, CloseSearch.endsAt, key.1.1.1.1.2, key.1.1.1.2, key.1.1.2, key.1.2, blank]

namespace CloseSearch

/-- Only a quote opens a value. -/
def Quotes : CloseSearch → Prop
  | outside _ => True
  | quoted quote => quote = '"' ∨ quote = '\''

/-- A value that the search for the end of a tag is in was opened by a quote. -/
theorem quotes_step {state : CloseSearch} (quotes : state.Quotes) (c : Char) :
    (state.step c).Quotes := by
  cases state with
  | outside afterEquals =>
    rw [step]
    split
    · trivial
    · split
      next opens =>
        simp only [Bool.and_eq_true, Bool.or_eq_true, decide_eq_true_eq] at opens
        exact opens.1
      next =>
        split
        · trivial
        · trivial
  | quoted quote =>
    rw [step]
    split
    · trivial
    · exact quotes

/-- The search for the end of a tag goes over a text and is then in another state. -/
def Passes (before : CloseSearch) (text : List Char) (after : CloseSearch) : Prop :=
  ∀ rest, splitAtClose? before (text ++ rest) =
    (splitAtClose? after rest).map fun (inside, last) => (text ++ inside, last)

theorem Passes.nil (state : CloseSearch) : state.Passes [] state := by
  intro rest
  simp

theorem Passes.cons {state after : CloseSearch} {c : Char} {text : List Char}
    (goes : state.endsAt c = false) (passes : (state.step c).Passes text after) :
    state.Passes (c :: text) after := by
  intro rest
  rw [List.cons_append, splitAtClose?, if_neg (by simp [goes]), passes rest, Option.map_map]
  rfl

/-- Texts that are passed one after the other are passed together. -/
theorem Passes.append {before between after : CloseSearch} {text more : List Char}
    (first : before.Passes text between) (second : between.Passes more after) :
    before.Passes (text ++ more) after := by
  intro rest
  rw [List.append_assoc, first, second, Option.map_map]
  congr 1
  funext split
  simp

/-- The search for the end of a tag passes a key. -/
theorem passes_key {key : List Char} (chars : ∀ c ∈ key, isKeyChar c = true) :
    (outside false).Passes key (outside false) := by
  induction key with
  | nil => exact .nil _
  | cons c rest ih =>
    obtain ⟨step, goes⟩ := step_of_isKeyChar (chars c List.mem_cons_self)
    refine .cons goes ?_
    rw [step]
    exact ih fun c member => chars c (List.mem_cons_of_mem _ member)

/-- The search for the end of a tag passes a quoted value. -/
theorem passes_quoted {value : List Char} (plain : '"' ∉ value) :
    (quoted '"').Passes (value ++ ['"']) (outside false) := by
  induction value with
  | nil => exact .cons rfl (.nil _)
  | cons c rest ih =>
    have other : c ≠ '"' := fun same => plain (same ▸ List.mem_cons_self)
    refine .cons rfl ?_
    rw [step, if_neg other]
    exact ih fun member => plain (List.mem_cons_of_mem _ member)

/-- The search for the end of a tag passes a written attribute. -/
theorem passes_attribute (written : WrittenAttribute) :
    (outside false).Passes written.render (outside false) := by
  have key := passes_key written.key_chars
  refine .cons rfl (key.append ?_)
  cases given : written.value with
  | none => exact .nil _
  | some text => exact .cons rfl (.cons rfl (passes_quoted (written.value_chars text given)))

/-- The search for the end of a tag passes written attributes. -/
theorem passes_attributes (attributes : List WrittenAttribute) :
    (outside false).Passes (attributes.flatMap WrittenAttribute.render) (outside false) := by
  induction attributes with
  | nil => exact .nil _
  | cons written rest ih => exact (passes_attribute written).append ih

end CloseSearch

namespace Attribute

/-- Cutting off a token takes a text whole and then goes on with another open quote. -/
def Takes (before : Option Char) (text : List Char) (after : Option Char) : Prop :=
  ∀ rest, splitToken before (text ++ rest) =
    (text ++ (splitToken after rest).1, (splitToken after rest).2)

theorem Takes.nil (quote : Option Char) : Takes quote [] quote := by
  intro rest
  rfl

theorem Takes.cons {quote after : Option Char} {c : Char} {text : List Char}
    (goes : (quote.isNone && isAsciiBlank c) = false)
    (takes : Takes (quoteAfter quote c) text after) :
    Takes quote (c :: text) after := by
  intro rest
  rw [List.cons_append, splitToken, if_neg (by simp [goes]), takes rest]
  rfl

/-- Texts that are taken one after the other are taken together. -/
theorem Takes.append {before between after : Option Char} {text more : List Char}
    (first : Takes before text between) (second : Takes between more after) :
    Takes before (text ++ more) after := by
  intro rest
  rw [List.append_assoc, first, second, List.append_assoc]

theorem takes_key {key : List Char} (chars : ∀ c ∈ key, isKeyChar c = true) :
    Takes none key none := by
  induction key with
  | nil => exact .nil _
  | cons c rest ih =>
    have first := chars c List.mem_cons_self
    refine .cons (by simp [not_blank_of_isKeyChar first]) ?_
    rw [quoteAfter_of_isKeyChar first]
    exact ih fun c member => chars c (List.mem_cons_of_mem _ member)

theorem takes_quoted {value : List Char} (plain : '"' ∉ value) :
    Takes (some '"') (value ++ ['"']) none := by
  induction value with
  | nil => exact .cons rfl (.nil _)
  | cons c rest ih =>
    have other : c ≠ '"' := fun same => plain (same ▸ List.mem_cons_self)
    refine .cons rfl ?_
    rw [quoteAfter, if_neg other]
    exact ih fun member => plain (List.mem_cons_of_mem _ member)

/-- A token takes a written attribute. -/
theorem takes_token (written : WrittenAttribute) : Takes none written.token none := by
  have key := takes_key written.key_chars
  refine key.append ?_
  cases given : written.value with
  | none => exact .nil _
  | some text => exact .cons rfl (.cons rfl (takes_quoted (written.value_chars text given)))

/-- An attribute whose blank is at an offset. -/
def ofWritten (offset : Nat) (written : WrittenAttribute) : Attribute where
  key := String.ofList written.key
  keySpan := ⟨offset + 1, offset + 1 + width written.key⟩
  value := written.value.map fun text =>
    let start := offset + 1 + width written.key + 2
    ⟨String.ofList text, ⟨start, start + width text⟩⟩

/-- Attributes one after the other from an offset on. -/
def allOfWritten (offset : Nat) : List WrittenAttribute → List Attribute
  | [] => []
  | written :: rest =>
    ofWritten offset written :: allOfWritten (offset + width written.render) rest

/-- A written attribute spells what is meant. -/
theorem spelled?_token (written : WrittenAttribute) (offset : Nat) :
    spelled? written.token (offset + 1) = some (ofWritten offset written) := by
  have solid : ∀ c ∈ written.key, decide (c ≠ '=') = true :=
    fun c member => decide_eq_true (ne_equals_of_isKeyChar (written.key_chars c member))
  have slashless : written.key ≠ ['/'] := by
    intro same
    have := written.key_chars '/' (by rw [same]; exact List.mem_singleton_self _)
    simp [isKeyChar] at this
  have named : ¬ (written.key.isEmpty || decide (written.key = ['/'])) = true := by
    simp [written.key_ne_nil, slashless]
  unfold spelled? ofWritten WrittenAttribute.token
  cases given : written.value with
  | none =>
    have whole : written.key.takeWhile (· ≠ '=') = written.key :=
      List.takeWhile_eq_self_iff.2 solid
    have none : written.key.dropWhile (· ≠ '=') = [] := List.dropWhile_eq_nil_iff.2 solid
    simp only [Option.elim_none, List.append_nil, whole, none, if_neg named]
    rfl
  | some text =>
    have quote : (unquote ('"' :: (text ++ ['"']))) = (text, 1) := by simp [unquote]
    simp only [Option.elim_some, List.takeWhile_append_of_pos solid,
      List.dropWhile_append_of_pos solid]
    simp [quote, named]

/-- There are no tokens among blanks. -/
theorem tokens_blank {text : List Char} (blank : ∀ c ∈ text, isAsciiBlank c = true) (offset : Nat) :
    tokens offset text = [] := by
  induction text generalizing offset with
  | nil => rw [tokens]
  | cons c rest ih =>
    rw [tokens, dif_pos (blank c List.mem_cons_self)]
    exact ih (fun c member => blank c (List.mem_cons_of_mem _ member)) _

/-- A token is cut off where the text ends or a blank follows. -/
theorem tokens_token (written : WrittenAttribute) (offset : Nat) {rest : List Char}
    (stops : ∀ c, rest.head? = some c → isAsciiBlank c = true) :
    tokens offset (written.token ++ rest) =
      (offset, written.token) :: tokens (offset + width written.token) rest := by
  have ended : splitToken none rest = ([], rest) := by
    cases rest with
    | nil => rfl
    | cons c rest => rw [splitToken, if_pos (by simp [stops c rfl])]
  have split : splitToken none (written.token ++ rest) = (written.token, rest) := by
    rw [takes_token written rest, ended, List.append_nil]
  obtain ⟨c, more, starts, solid⟩ :
      ∃ c more, written.token = c :: more ∧ isAsciiBlank c = false := by
    obtain ⟨c, more, key⟩ := List.exists_cons_of_ne_nil written.key_ne_nil
    refine ⟨c, _, by rw [WrittenAttribute.token, key]; rfl, not_blank_of_isKeyChar ?_⟩
    exact written.key_chars c (by rw [key]; exact List.mem_cons_self)
  rw [starts] at split ⊢
  rw [List.cons_append] at split ⊢
  rw [tokens, dif_neg (by simp [solid])]
  simp only [split]

/-- Written attributes start with a blank. -/
theorem head?_attributes (attributes : List WrittenAttribute) {tail : List Char}
    (blank : ∀ c ∈ tail, isAsciiBlank c = true) (c : Char)
    (starts : (attributes.flatMap WrittenAttribute.render ++ tail).head? = some c) :
    isAsciiBlank c = true := by
  cases attributes with
  | nil => exact blank c (List.mem_of_mem_head? starts)
  | cons written rest =>
    cases starts
    rfl

/-- Written attributes are listed as they are meant. -/
theorem listed_attributes (attributes : List WrittenAttribute) (base : Nat) {tail : List Char}
    (blank : ∀ c ∈ tail, isAsciiBlank c = true) :
    listed base (attributes.flatMap WrittenAttribute.render ++ tail) =
      allOfWritten base attributes := by
  have from_offset : ∀ offset,
      (tokens offset (attributes.flatMap WrittenAttribute.render ++ tail)).filterMap
          (fun place => spelled? place.2 (base + place.1)) =
        allOfWritten (base + offset) attributes := by
    induction attributes with
    | nil =>
      intro offset
      rw [List.flatMap_nil, List.nil_append, tokens_blank blank]
      rfl
    | cons written rest ih =>
      intro offset
      have space : ' '.utf8Size = 1 := rfl
      have size : width written.render = 1 + width written.token := by
        rw [WrittenAttribute.render, width_cons, space]
      rw [List.flatMap_cons, WrittenAttribute.render, List.append_assoc, List.cons_append, tokens,
        dif_pos (show isAsciiBlank ' ' = true from rfl),
        tokens_token written _ (head?_attributes rest blank), List.filterMap_cons]
      simp only [space, ← Nat.add_assoc, spelled?_token]
      rw [ih, allOfWritten, size]
      simp only [Nat.add_assoc]
  exact from_offset 0

end Attribute

/-- What ends a name is no character of it. -/
theorem not_isNameChar_of_endsName {c : Char} {rest : List Char}
    (ends : endsName (c :: rest) = true) :
    isNameChar c = false := by
  simp only [endsName, isAsciiBlank, Bool.or_eq_true, decide_eq_true_eq] at ends
  rcases ends with ((((((rfl | rfl) | rfl) | rfl) | rfl) | rfl) | rfl) <;> rfl

/-- An opening tag is read from its name and what stands between the name and the `>`. -/
theorem openingTag?_name {name : List Char} (nonempty : name ≠ [])
    (named : ∀ c ∈ name, isNameChar c = true) (offset : Nat) {inside rest : List Char}
    (ends : endsName (inside ++ '>' :: rest) = true)
    (close : splitAtClose? (.outside false) (inside ++ '>' :: rest) = some (inside, rest)) :
    openingTag? offset (name ++ (inside ++ '>' :: rest)) =
      let closesItself := (trimBlankEnd inside).getLast? = some '/'
      let attributeText :=
        if closesItself then (trimBlankEnd inside).dropLast else trimBlankEnd inside
      let nameStop := offset + 1 + width name
      let stop := nameStop + width inside + 1
      some
        ({ kind := if closesItself then .selfClosing else .opening
           name := String.ofList name
           span := ⟨offset, stop⟩
           attributeSpan := ⟨nameStop, nameStop + width attributeText⟩
           attributeText := attributeText }, ⟨stop, rest⟩) := by
  have stops : ∀ c, (inside ++ '>' :: rest).head? = some c → isNameChar c = false := by
    intro c starts
    cases text : inside ++ '>' :: rest with
    | nil => simp [text] at starts
    | cons d more =>
      rw [text] at ends starts
      cases starts
      exact not_isNameChar_of_endsName ends
  obtain ⟨taken, after⟩ := takeWhile_dropWhile_append named stops
  unfold openingTag?
  rw [taken, after]
  dsimp only
  rw [if_neg (by simp [nonempty, ends]), close]

/-- A closing tag is read from its name and the blanks between the name and the `>`. -/
theorem closingTag?_name {name blanks : List Char} (named : ∀ c ∈ name, isNameChar c = true)
    (blank : ∀ c ∈ blanks, isAsciiBlank c = true) (offset : Nat) (rest : List Char) :
    closingTag? offset (name ++ (blanks ++ '>' :: rest)) =
      let nameStop := offset + 2 + width name
      let stop := nameStop + width blanks + 1
      some
        ({ kind := .closing
           name := String.ofList name
           span := ⟨offset, stop⟩
           attributeSpan := .emptyAt nameStop
           attributeText := [] }, ⟨stop, rest⟩) := by
  have stops : ∀ c, (blanks ++ '>' :: rest).head? = some c → isNameChar c = false := by
    intro c starts
    cases blanks with
    | nil =>
      cases starts
      rfl
    | cons d more =>
      cases starts
      have ends : endsName [c] = true := by simp [endsName, blank c]
      exact not_isNameChar_of_endsName ends
  have ends : ∀ c, ('>' :: rest).head? = some c → isAsciiBlank c = false := by
    intro c starts
    cases starts
    rfl
  obtain ⟨taken, after⟩ := takeWhile_dropWhile_append named stops
  obtain ⟨skipped, close⟩ := takeWhile_dropWhile_append blank ends
  unfold closingTag?
  rw [taken, after]
  dsimp only
  rw [skipped, close]
  rfl

/-- A text that does not end in a blank is not trimmed. -/
theorem trimBlankEnd_eq_self {text : List Char}
    (ends : ∀ c, text.getLast? = some c → isAsciiBlank c = false) : trimBlankEnd text = text := by
  have starts : ∀ c, text.reverse.head? = some c → isAsciiBlank c = false := by
    intro c is
    exact ends c (by rwa [List.head?_reverse] at is)
  unfold trimBlankEnd
  rw [← List.reverse_inj, List.reverse_reverse]
  cases reversed : text.reverse with
  | nil => rfl
  | cons c rest =>
    rw [reversed] at starts
    rw [List.dropWhile_cons_of_neg (by simp [starts c rfl])]

namespace Head

/-- Written attributes end neither in a blank nor in a slash. -/
theorem getLast?_attributeText (head : Head) (c : Char)
    (last : head.attributeText.getLast? = some c) :
    isAsciiBlank c = false ∧ c ≠ '/' := by
  unfold attributeText at last
  obtain none | ⟨front, written, split⟩ := List.eq_nil_or_concat head.attributes
  · simp [none] at last
  · obtain ⟨d, token⟩ :
        ∃ d, written.token.getLast? = some d ∧ isAsciiBlank d = false ∧ d ≠ '/' := by
      unfold WrittenAttribute.token
      cases written.value with
      | none =>
        obtain ⟨d, is⟩ := Option.isSome_iff_exists.1 (List.getLast?_isSome.2 written.key_ne_nil)
        have key := written.key_chars d (List.mem_of_mem_getLast? is)
        refine ⟨d, by simpa using is, not_blank_of_isKeyChar key, ?_⟩
        rintro rfl
        simp [isKeyChar] at key
      | some text => exact ⟨'"', by simp [List.getLast?_cons], rfl, by decide⟩
    have same : (front.concat written |>.flatMap WrittenAttribute.render).getLast? = some d := by
      simp [WrittenAttribute.render, List.getLast?_cons, token.1]
    rw [split, same] at last
    cases last
    exact token.2

/-- The tag that opens the element at an offset. -/
def opening (offset : Nat) (head : Head) : Tag where
  kind := .opening
  name := String.ofList head.name
  span := ⟨offset, offset + width head.openTag⟩
  attributeSpan :=
    ⟨offset + 1 + width head.name, offset + 1 + width head.name + width head.attributeText⟩
  attributeText := head.attributeText

/-- The tag of the element at an offset that closes itself. -/
def single (offset : Nat) (head : Head) : Tag where
  kind := .selfClosing
  name := String.ofList head.name
  span := ⟨offset, offset + width head.singleTag⟩
  attributeSpan :=
    ⟨offset + 1 + width head.name,
      offset + 1 + width head.name + width (head.attributeText ++ [' '])⟩
  attributeText := head.attributeText ++ [' ']

/-- The tag at an offset that closes the element. -/
def closing (offset : Nat) (head : Head) : Tag where
  kind := .closing
  name := String.ofList head.name
  span := ⟨offset, offset + width head.closeTag⟩
  attributeSpan := .emptyAt (offset + 2 + width head.name)
  attributeText := []

theorem width_openTag (head : Head) :
    width head.openTag = 1 + width head.name + width head.attributeText + 1 := by
  rw [openTag, width_cons, width_append, width_append]
  change 1 + (_ + (_ + 1)) = _
  omega

theorem width_singleTag (head : Head) :
    width head.singleTag = 1 + width head.name + width head.attributeText + 2 + 1 := by
  rw [singleTag, width_cons, width_append, width_append]
  change 1 + (_ + (_ + 3)) = _
  omega

theorem width_closeTag (head : Head) : width head.closeTag = 2 + width head.name + 1 := by
  rw [closeTag, width_cons, width_cons, width_append]
  change 1 + (1 + (_ + 1)) = _
  omega

/-- The name of a tag ends in front of its attributes. -/
theorem endsName_attributeText (head : Head) {rest : List Char} (ends : endsName rest = true) :
    endsName (head.attributeText ++ rest) = true := by
  unfold attributeText
  cases head.attributes with
  | nil => exact ends
  | cons written more => rfl

/-- A name with text after it is the start of a tag if the text lets the name end and holds the end
of a tag. -/
theorem openingTag?_openTag (head : Head) (offset : Nat) (rest : List Char) :
    openingTag? offset (head.name ++ (head.attributeText ++ '>' :: rest)) =
      some (head.opening offset, ⟨offset + width head.openTag, rest⟩) := by
  have close : splitAtClose? (.outside false) (head.attributeText ++ '>' :: rest) =
      some (head.attributeText, rest) := by
    rw [attributeText, CloseSearch.passes_attributes head.attributes]
    simp [splitAtClose?, CloseSearch.endsAt]
  have trim : trimBlankEnd head.attributeText = head.attributeText :=
    trimBlankEnd_eq_self fun c last => (head.getLast?_attributeText c last).1
  have plain : head.attributeText.getLast? ≠ some '/' :=
    fun last => (head.getLast?_attributeText '/' last).2 rfl
  rw [openingTag?_name head.name_ne_nil head.name_chars offset (head.endsName_attributeText rfl)
    close]
  simp only [trim, plain, if_false, opening, width_openTag, ← Nat.add_assoc]

/-- A rendered tag on its own is read as that tag. -/
theorem openingTag?_singleTag (head : Head) (offset : Nat) (rest : List Char) :
    openingTag? offset (head.name ++ (head.attributeText ++ ' ' :: '/' :: '>' :: rest)) =
      some (head.single offset, ⟨offset + width head.singleTag, rest⟩) := by
  have close : splitAtClose? (.outside false) ((head.attributeText ++ [' ', '/']) ++ '>' :: rest) =
      some (head.attributeText ++ [' ', '/'], rest) := by
    have slash : (CloseSearch.outside false).Passes [' ', '/'] (.outside false) :=
      .cons rfl (.cons rfl (.nil _))
    rw [attributeText, (CloseSearch.passes_attributes head.attributes).append slash]
    simp [splitAtClose?, CloseSearch.endsAt]
  have trim : trimBlankEnd (head.attributeText ++ [' ', '/']) = head.attributeText ++ [' ', '/'] :=
    trimBlankEnd_eq_self fun c last => by
      simp at last
      exact last ▸ rfl
  have slashed : (head.attributeText ++ [' ', '/']).getLast? = some '/' := by simp
  have front : (head.attributeText ++ [' ', '/']).dropLast = head.attributeText ++ [' '] := by
    simp [List.dropLast_append_of_ne_nil]
  have size : width (head.attributeText ++ [' ', '/']) = width head.attributeText + 2 := by
    rw [width_append]
    rfl
  have text : head.attributeText ++ ' ' :: '/' :: '>' :: rest =
      (head.attributeText ++ [' ', '/']) ++ '>' :: rest := by simp
  rw [text, openingTag?_name head.name_ne_nil head.name_chars offset _ close]
  · simp only [trim, slashed, if_true, front, single, width_singleTag, size, ← Nat.add_assoc]
  · rw [List.append_assoc]
    exact head.endsName_attributeText rfl

/-- A rendered closing tag is read as that tag. -/
theorem closingTag?_closeTag (head : Head) (offset : Nat) (rest : List Char) :
    closingTag? offset (head.name ++ '>' :: rest) =
      some (head.closing offset, ⟨offset + width head.closeTag, rest⟩) := by
  have blank : ∀ c ∈ ([] : List Char), isAsciiBlank c = true := by simp
  have read := closingTag?_name head.name_chars blank offset rest
  rw [List.nil_append] at read
  rw [read, closing, width_closeTag, ← Nat.add_assoc, ← Nat.add_assoc]
  rfl

end Head

end SfcIndex.Markup

namespace SfcIndex.Text.Cursor

open Markup

/-- An opening tag at `<` is found next. -/
theorem nextTag?_of_openingTag? {offset : Nat} {c : Char} {rest : List Char} {found : Tag × Cursor}
    (named : isNameChar c = true) (opened : openingTag? offset (c :: rest) = some found) :
    nextTag? ⟨offset, '<' :: c :: rest⟩ = some found := by
  rw [nextTag?_angle, opened]
  · rintro rest' ⟨⟩
    simp [isNameChar] at named
  · rintro rest' ⟨⟩
    simp [isNameChar] at named

/-- A closing tag at a place is the next one from there. -/
theorem nextTag?_of_closingTag? {cursor : Cursor} {inside : List Char} {found : Tag × Cursor}
    (rest : cursor.rest = '<' :: '/' :: inside)
    (closed : closingTag? cursor.offset inside = some found) : cursor.nextTag? = some found := by
  obtain ⟨offset, text⟩ := cursor
  cases rest
  rw [nextTag?, closed]

/-- A rendered opening tag is found next. -/
theorem nextTag?_openTag (head : Head) (offset : Nat) (rest : List Char) :
    nextTag? ⟨offset, head.openTag ++ rest⟩ =
      some (head.opening offset, ⟨offset + width head.openTag, rest⟩) := by
  obtain ⟨c, more, name⟩ := List.exists_cons_of_ne_nil head.name_ne_nil
  have named := head.name_chars c (by rw [name]; exact List.mem_cons_self)
  have opened := head.openingTag?_openTag offset rest
  have text : head.openTag ++ rest = '<' :: (head.name ++ (head.attributeText ++ '>' :: rest)) := by
    simp [Head.openTag]
  rw [text]
  rw [name, List.cons_append] at opened ⊢
  exact nextTag?_of_openingTag? named opened

/-- A rendered tag on its own is found next. -/
theorem nextTag?_singleTag (head : Head) (offset : Nat) (rest : List Char) :
    nextTag? ⟨offset, head.singleTag ++ rest⟩ =
      some (head.single offset, ⟨offset + width head.singleTag, rest⟩) := by
  obtain ⟨c, more, name⟩ := List.exists_cons_of_ne_nil head.name_ne_nil
  have named := head.name_chars c (by rw [name]; exact List.mem_cons_self)
  have opened := head.openingTag?_singleTag offset rest
  have text : head.singleTag ++ rest =
      '<' :: (head.name ++ (head.attributeText ++ ' ' :: '/' :: '>' :: rest)) := by
    simp [Head.singleTag]
  rw [text]
  rw [name, List.cons_append] at opened ⊢
  exact nextTag?_of_openingTag? named opened

/-- A rendered closing tag is found next. -/
theorem nextTag?_closeTag (head : Head) (offset : Nat) (rest : List Char) :
    nextTag? ⟨offset, head.closeTag ++ rest⟩ =
      some (head.closing offset, ⟨offset + width head.closeTag, rest⟩) := by
  have text : head.closeTag ++ rest = '<' :: '/' :: (head.name ++ '>' :: rest) := by
    simp [Head.closeTag]
  rw [text, nextTag?, head.closingTag?_closeTag]

/-- The search for tags passes over text without `<`. -/
theorem nextTag?_text {chunk : List Char} (plain : '<' ∉ chunk) (offset : Nat) (rest : List Char) :
    nextTag? ⟨offset, chunk ++ rest⟩ = nextTag? ⟨offset + width chunk, rest⟩ := by
  induction chunk generalizing offset with
  | nil => rfl
  | cons c chunk ih =>
    have other : c ≠ '<' := fun same => plain (same ▸ List.mem_cons_self)
    rw [List.cons_append, nextTag?_of_ne other,
      ih (fun member => plain (List.mem_cons_of_mem _ member)), width_cons, Nat.add_assoc]

/-- A comment ends behind its first `-->`. -/
theorem pastComment_body {body : List Char} (ends : EndsComment body) (offset : Nat)
    (rest : List Char) :
    pastComment offset (body ++ '-' :: '-' :: '>' :: rest) = ⟨offset + width body + 3, rest⟩ := by
  induction body generalizing offset with
  | nil => rfl
  | cons c body ih =>
    have later : EndsComment body := by
      intro before after split
      have := ends (c :: before) after (by rw [List.cons_append, List.cons_append, split])
      simpa using this
    -- A `-->` at the start of the body would come before the one that ends the comment.
    have unended : ∀ after,
        c :: body ++ '-' :: '-' :: '>' :: rest ≠ '-' :: '-' :: '>' :: after := by
      intro after same
      have whole : ['-', '-', '>'] <+: (c :: body ++ ['-', '-', '>']) ++ rest :=
        ⟨after, by simpa using same.symm⟩
      obtain ⟨last, split⟩ :=
        List.prefix_of_prefix_length_le whole (List.prefix_append _ _) (by simp)
      have := ends [] last split.symm
      simp at this
    rw [List.cons_append, pastComment.eq_def]
    split
    next same => cases same
    next after same => exact absurd same (unended after)
    next d more _ same =>
      cases same
      rw [ih later, width_cons, Nat.add_assoc offset]

/-- The search for tags passes over comments. -/
theorem nextTag?_comment {body : List Char} (ends : EndsComment body) (offset : Nat)
    (rest : List Char) :
    nextTag? ⟨offset, Item.commentText body ++ rest⟩ =
      nextTag? ⟨offset + width (Item.commentText body), rest⟩ := by
  have text : Item.commentText body ++ rest =
      '<' :: '!' :: '-' :: '-' :: (body ++ '-' :: '-' :: '>' :: rest) := by
    simp [Item.commentText]
  have size : width (Item.commentText body) = 4 + width body + 3 := by
    simp only [Item.commentText, width_cons, width_append]
    change 1 + (1 + (1 + (1 + (width body + 3)))) = _
    omega
  rw [text, nextTag?, pastComment_body ends, size]
  simp only [Nat.add_assoc]

/-- A rendered closing tag ends raw text. -/
theorem atRawEnd_closeTag (head : Head) (rest : List Char) :
    atRawEnd head.name (head.closeTag ++ rest) = true := by
  have text : head.closeTag ++ rest = '<' :: '/' :: (head.name ++ '>' :: rest) := by
    simp [Head.closeTag]
  have plain : isNameChar '>' = false := rfl
  rw [text, atRawEnd, List.take_left, List.drop_left]
  simp [plain]

/-- Where the content of a raw-text element can still go on, the element does not end. -/
theorem atRawEnd_content {head : Head} {c : Char} {content : List Char}
    (ends : EndsRaw head (c :: content)) (rest : List Char) :
    atRawEnd head.name (c :: content ++ (head.closeTag ++ rest)) = false := by
  have size : head.closeTag.length = head.name.length + 3 := by simp [Head.closeTag]
  cases found : atRawEnd head.name (c :: content ++ (head.closeTag ++ rest)) with
  | false => rfl
  | true =>
    rw [atRawEnd.eq_def] at found
    split at found
    next after starts =>
      rw [Bool.and_eq_true, beq_iff_eq] at found
      obtain ⟨same, follows⟩ := found
      have long : head.name.length < after.length := by
        have := congrArg List.length starts
        simp only [List.length_append, List.length_cons, size] at this
        omega
      obtain ⟨d, tail, split⟩ : ∃ d tail, after.drop head.name.length = d :: tail := by
        apply List.exists_cons_of_ne_nil
        rw [ne_eq, List.drop_eq_nil_iff]
        omega
      have other : isNameChar d = false := by simpa [split] using follows
      have whole : '<' :: '/' :: (after.take head.name.length ++ [d]) <+:
          (c :: content ++ head.closeTag) ++ rest := by
        refine ⟨tail, ?_⟩
        rw [List.append_assoc (c :: content), starts]
        conv => rhs; rw [← List.take_append_drop head.name.length after, split]
        simp
      obtain ⟨last, inside⟩ := List.prefix_of_prefix_length_le whole (List.prefix_append _ _) (by
        simp only [List.length_cons, List.length_append, List.length_take, List.length_nil, size]
        omega)
      have := ends [] (after.take head.name.length) d last (by rw [← inside]; simp) same other
      simp at this
    next => cases found

/-- Raw text is jumped over up to the closing tag of its element. -/
theorem skipRaw_content {head : Head} {content : List Char} (ends : EndsRaw head content)
    (offset : Nat) (rest : List Char) :
    skipRaw head.name ⟨offset, content ++ (head.closeTag ++ rest)⟩ =
      ⟨offset + width content, head.closeTag ++ rest⟩ := by
  change skipRaw.go head.name offset (content ++ (head.closeTag ++ rest)) = _
  induction content generalizing offset with
  | nil =>
    have found := atRawEnd_closeTag head rest
    rw [List.nil_append]
    unfold Head.closeTag at found ⊢
    rw [List.cons_append] at found ⊢
    rw [skipRaw.go, if_pos found]
    rfl
  | cons c content ih =>
    have later : EndsRaw head content := by
      intro before written d after split same other
      have := ends (c :: before) written d after (by rw [List.cons_append, split]; rfl) same other
      simpa using this
    have none := atRawEnd_content ends rest
    rw [List.cons_append] at none ⊢
    rw [skipRaw.go, if_neg (by simp [none]), ih later, width_cons, Nat.add_assoc]

end SfcIndex.Text.Cursor
