import SfcIndex.Proofs.Markup.Borders
import SfcIndex.Proofs.Table.Soundness
import SfcIndex.Proofs.Table.Visibility

/-! # The definition of a variable at its declaration

No word character touches a variable where it is declared, so the word there is its name
(`Template.Declares.wordRun`). A look-up at the declaration of a loop or slot variable finds the
declaration (`Table.build_definesItself`).
-/

namespace SfcIndex

open Text Markup

namespace Template

/-- White space is no word character. -/
theorem isWordChar_of_isBlank {c : Char} (blank : Unicode.isBlank c = true) :
    isWordChar c = false := by
  by_contra word
  rw [Bool.not_eq_false] at word
  have codes := toNat_of_isWordChar word
  simp only [Unicode.isBlank, Unicode.inRanges, Unicode.blankRanges, List.any_cons, List.any_nil,
    Bool.or_false, Bool.or_eq_true, Bool.and_eq_true, decide_eq_true_iff] at blank
  omega

/-- No word character touches the aliases of a loop. -/
theorem LoopAliases.bordered {value aliases : List Char} {skipped : Nat}
    (head : LoopAliases value skipped aliases) : Bordered value skipped aliases := by
  cases head with
  | @beforeKeyword lead body aliases whole blank solid keyword first =>
    obtain ⟨gap, word, space, rest, split, some, blanks, -, -⟩ := keyword
    refine ⟨lead, gap ++ (word ++ space :: rest), by rw [whole, split], rfl, ?_, ?_⟩
    · intro c is
      exact isWordChar_of_isBlank (blank c (List.mem_of_getLast? is))
    · obtain ⟨d, more, rfl⟩ := List.exists_cons_of_ne_nil some
      rintro c ⟨⟩
      exact isWordChar_of_isBlank (blanks d List.mem_cons_self)
  | withoutKeyword none =>
    refine ⟨[], value.dropWhile (· ≠ ' '), ?_, rfl, by simp, ?_⟩
    · rw [List.nil_append, List.takeWhile_append_dropWhile]
    · intro c is
      have space := head?_dropWhile_eq_false (· ≠ ' ') value c is
      obtain rfl : c = ' ' := by simpa using space
      rfl

/-- A declared variable is a maximal run of word characters in the text. -/
theorem Declares.wordRun {rawTags : List String} {text : List Char} {element : Region}
    (member : element ∈ (Region.tree rawTags text).children.flatMap Region.descendants)
    {declaration : Attribute} (carries : declaration ∈ element.attributes) {location : Location}
    (declares : Declares declaration location) :
    WordRun text location.offset location.name.toList := by
  cases declares with
  | loop key is head stands =>
    have bordered := Region.value_bordered member carries is
    exact (bordered.trans head.bordered).wordRun stands.1
  | slot key is stands => exact (Region.value_bordered member carries is).wordRun stands.1

end Template

namespace Table

/-- What a look-up at the position of a binding says: the word is the binding's name, where it
stands, and the binding is one of the definitions. -/
structure DefinesItself (table : Table) (text : List Char) (binding : Binding)
    (definition : Definition) : Prop where
  found : table.definitionAt? text binding.position = some definition
  word_eq : definition.word = binding.name
  range_eq : definition.range = binding.nameSpan
  located : binding.location ∈ definition.locations

variable {reader : Script.Reader} {options : Options} {text : List Char} {binding : Binding}

/-- The definitions of a word are looked up from where the word stands. -/
theorem locations_eq {table : Table} {offset : Nat} {definition : Definition}
    (found : table.definitionAt? text offset = some definition) :
    definition.locations = table.query definition.word definition.range := by
  rw [definitionAt?] at found
  obtain ⟨word, -, same⟩ := Option.bind_eq_some_iff.1 found
  cases same
  rfl

/-- A look-up at a declaration finds it. -/
theorem exists_definesItself (fits : width text ≤ Offset.limit)
    (member : binding ∈ (contents reader options text).bindings)
    (limited : binding.category.isScoped = true) :
    ∃ definition, DefinesItself (contents reader options text) text binding definition := by
  obtain ⟨element, ⟨template, known, -, -, below⟩, scope, declaration, carries, declares⟩ :=
    exists_declares fits limited member
  have listed := Template.mem_descendants_of_mem known below
  -- The word at the position is the name, because no word character touches it.
  have word := (declares.wordRun listed carries).wordAt?_eq
  -- The name lies in the tag of the element that is its scope.
  have inside := declares.standsIn listed carries
  obtain ⟨next, bounds⟩ := Region.exists_bounds listed
  have covered : element.span.contains binding.nameSpan = true :=
    Span.contains_iff.2 ⟨Nat.le_of_lt inside.tag_lt,
      Nat.le_trans (Nat.le_of_lt inside.lt_tag) bounds.tag_le_span⟩
  have visible : binding.isVisibleFrom binding.nameSpan = true := by
    rw [Binding.isVisibleFrom, scope, Option.all_some, covered, Bool.or_true]
  have located : binding.location ∈
      (contents reader options text).query binding.name binding.nameSpan := by
    apply List.mem_map_of_mem
    apply List.mem_filter.2
    exact ⟨member, by rw [visible, Bool.and_true, decide_eq_true rfl]⟩
  refine ⟨⟨binding.name, binding.nameSpan, _⟩, ?_, rfl, rfl, located⟩
  rw [String.ofList_toList] at word
  have word' : wordAt? text binding.position = some (binding.nameSpan, binding.name) := word
  rw [definitionAt?, word']
  rfl

/-- A look-up at the declaration of a loop or slot variable finds the declaration, if the text ends
below the limit of offsets; and the text has a table, if its scripts end below the limit too. -/
theorem build_definesItself (reader : Script.Reader) (options : Options) {text : List Char}
    (fits : width text ≤ Offset.limit) :
    (∀ table, build reader options text = .ok table →
      ∀ binding ∈ table.bindings, binding.category.isScoped = true →
        ∃ definition, DefinesItself table text binding definition) ∧
    (ScriptsStayInside reader options text → ∃ table, build reader options text = .ok table) := by
  constructor
  · intro table built binding member limited
    rw [eq_contents_of_build fits built] at member ⊢
    exact exists_definesItself fits member limited
  · intro scripts
    exact ⟨_, (build_gives reader options fits).eq_ok ((below_contents scripts).mono fits)⟩

/-- So it is for an alias behind a letter that is no word character, and for a slot variable without
quotes of an element that is never closed. -/
theorem build_definesItself_unquoted :
    let text := "<template><u v-for='(éa,$i) of b'/><i #s=x></template>".toList
    width text ≤ Offset.limit ∧ ScriptsStayInside Script.read {} text ∧
      ∃ table, build Script.read {} text = .ok table ∧
        (table.bindings.map fun binding => (binding.name, binding.position)) =
          [("a", 23), ("$i", 25), ("x", 42)] ∧
        ∀ binding ∈ table.bindings, binding.category.isScoped = true →
          ∃ definition, DefinesItself table text binding definition := by
  intro text
  have fits : width text ≤ Offset.limit := by decide +kernel
  have scripts : ScriptsStayInside Script.read {} text := by decide +kernel
  obtain ⟨defines, builds⟩ := build_definesItself Script.read {} fits
  obtain ⟨table, built⟩ := builds scripts
  refine ⟨fits, scripts, table, built, ?_, defines table built⟩
  rw [eq_contents_of_build fits built]
  decide +kernel

/-- In a text that is too long a declaration need not be found at its own place: the loop variable
of `loopText` is declared where its scope ends. -/
theorem build_definesItself_tooLong :
    ∃ table, build Script.read {} loopText = .ok table ∧
      ∃ binding ∈ table.bindings, binding.category.isScoped = true ∧
        ∀ definition, ¬ DefinesItself table loopText binding definition := by
  refine ⟨_, build_loopText Script.read, _, List.mem_singleton_self _, rfl, ?_⟩
  intro definition defines
  have located := defines.located
  rw [locations_eq defines.found, defines.word_eq, defines.range_eq] at located
  revert located
  decide +kernel

end Table

end SfcIndex
