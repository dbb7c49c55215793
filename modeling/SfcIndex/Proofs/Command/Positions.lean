import SfcIndex.Command.Run
import SfcIndex.Proofs.Table.Places
import SfcIndex.Script.Read

/-! # Positions that are shown can be asked for

The line and the column that are shown for a binding are read back from the command line as the same
numbers, and they lead to the binding's offset (`Command.placeOffset_shownPosition`).
-/

namespace SfcIndex.Command

open Text

/-- A number that can be an offset is read as it is written. -/
theorem number?_toString {n : Nat} (fits : n ≤ Offset.limit) : number? (toString n) = some n := by
  have digit : ∀ c ∈ Nat.toDigits 10 n, c.isDigit = true :=
    fun c member => Nat.isDigit_of_mem_toDigits (by decide) (by decide) member
  have value : (Nat.toDigits 10 n).foldl
      (fun value digit => 10 * value + (digit.toNat - '0'.toNat)) 0 = n := by
    rw [← Nat.ofDigitChars_eq_foldl, Nat.ofDigitChars_ten_toDigits]
  have all : (Nat.toDigits 10 n).all Char.isDigit = true := List.all_eq_true.2 digit
  have some : (Nat.toDigits 10 n).isEmpty = false := List.isEmpty_eq_false_iff.2 Nat.toDigits_ne_nil
  -- A digit comes first, so there is no sign.
  obtain ⟨c, rest, split⟩ := List.exists_cons_of_ne_nil (Nat.toDigits_ne_nil (n := n) (b := 10))
  have first : c.isDigit = true := digit c (split ▸ List.mem_cons_self)
  have minus : c ≠ '-' := by
    rintro rfl
    revert first
    decide
  have plus : c ≠ '+' := by
    rintro rfl
    revert first
    decide
  rw [split] at value all some
  rw [number?, Nat.toString_eq_ofList_toDigits, String.toList_ofList, split]
  split
  next negative digits sign =>
  split at sign
  next same => exact absurd (List.cons.inj same).1 minus
  next same => exact absurd (List.cons.inj same).1 plus
  next =>
    cases sign
    rw [some, all, value]
    simp [fits]

/-- An argument looks like an option when it starts with `-` and is more than that. -/
theorem looksLikeOption_iff {argument : String} :
    looksLikeOption argument = true ↔ argument.toList.head? = some '-' ∧ argument ≠ "-" := by
  have dash : "-".toList <+: argument.toList ↔ argument.toList.head? = some '-' := by
    rw [List.head?_eq_some_iff]
    constructor
    · rintro ⟨rest, same⟩
      exact ⟨rest, same.symm⟩
    · rintro ⟨rest, same⟩
      exact ⟨rest, same.symm⟩
  rw [looksLikeOption, Bool.and_eq_true, String.startsWith_string_iff, decide_eq_true_iff, dash]

/-- No number looks like an option. -/
theorem looksLikeOption_toString (n : Nat) : looksLikeOption (toString n) = false := by
  apply Bool.eq_false_iff.2
  intro looks
  obtain ⟨head, -⟩ := looksLikeOption_iff.1 looks
  rw [Nat.toString_eq_ofList_toDigits, String.toList_ofList] at head
  have digit := Nat.isDigit_of_mem_toDigits (by decide) (by decide) (List.mem_of_mem_head? head)
  revert digit
  decide

/-- A number is taken as the value of the option in front of it. -/
theorem scan_number {argument long : String} {scanned : Scanned} {n fuel : Nat}
    {rest : List String} (fits : n ≤ Offset.limit) (other : argument ≠ "--")
    (looks : looksLikeOption argument = true) (new : scanned.has long = false)
    (takes : ∀ values, takeOption definitionOptions argument values =
      takeKind (numberOption long) none values) :
    scan definitionOptions false (fuel + 1) scanned (argument :: toString n :: rest) =
      scan definitionOptions false fuel
        { scanned with given := scanned.given ++ [⟨long, toString n⟩] } rest := by
  have taken : takeKind (numberOption long) none (toString n :: rest) =
      .given ⟨long, toString n⟩ rest := by
    change (if !looksLikeOption (toString n) && (number? (toString n)).isSome then
      Taken.given ⟨long, toString n⟩ rest else .misuse) = _
    rw [looksLikeOption_toString, number?_toString fits]
    rfl
  have added : scanned.addGiven ⟨long, toString n⟩ =
      .ok { scanned with given := scanned.given ++ [⟨long, toString n⟩] } := by
    rw [Scanned.addGiven, new]
    rfl
  rw [scan, if_neg other, if_pos looks, takes, taken]
  dsimp only
  rw [added]
  rfl

/-- What is scanned when a line and a column of a file are asked for. -/
def scannedPosition (file : String) (line column : Nat) : Scanned :=
  ⟨[⟨"line", toString line⟩, ⟨"column", toString column⟩], [file]⟩

/-- A line and a column that are scanned are the place that is asked for. -/
theorem place?_scannedPosition (file : String) {line column : Nat}
    (lineFits : line ≤ Offset.limit) (columnFits : column ≤ Offset.limit) :
    (scannedPosition file line column).place? = some (.position line column) := by
  have offset : (scannedPosition file line column).value? "offset" = none := rfl
  have lineValue : (scannedPosition file line column).value? "line" = some (toString line) := rfl
  have columnValue : (scannedPosition file line column).value? "column" =
      some (toString column) := rfl
  simp only [Scanned.place?, offset, lineValue, columnValue, Option.bind_none, Option.bind_some,
    number?_toString lineFits, number?_toString columnFits]

/-- The arguments after `definition` name a file and a place in it. -/
theorem parseTask_definition {top scanned : Scanned} (arguments : List String)
    {rest : List String} {file : String} {place : Place}
    (level : scan definitionOptions false (arguments.length + 1) {} arguments = .ok (scanned, rest))
    (path : scanned.file? = some file) (located : scanned.place? = some place) :
    parseTask top ("definition" :: arguments) =
      .ok (.run ((scanned.value? "config").orElse fun () => top.value? "config")
        (.definition file place scanned.format)) := by
  have task : ((do return Task.definition (← scanned.file?) (← scanned.place?) scanned.format) :
      Option Task) = some (.definition file place scanned.format) := by
    rw [path, located]
    rfl
  change (scan definitionOptions false (arguments.length + 1) {} arguments >>= _) = _
  rw [level]
  change Except.ok (Option.elim _ Invocation.misuse (Invocation.run _)) = _
  dsimp only
  rw [task]
  rfl

/-- A line and a column are asked for as the numbers that they are. -/
theorem parse_position {file : String} {line column : Nat} (named : file ≠ "")
    (lineFits : line ≤ Offset.limit) (columnFits : column ≤ Offset.limit) :
    parse ["definition", "--line", toString line, "--column", toString column, "--", file] =
      .run none (.definition file (.position line column) .text) := by
  have plain : looksLikeOption "definition" = false :=
    Bool.eq_false_iff.2 (mt looksLikeOption_iff.1 (by decide))
  have top : ∀ arguments, scan topOptions true 8 {} ("definition" :: arguments) =
      .ok ({}, "definition" :: arguments) := by
    intro arguments
    rw [scan, if_neg (by decide), plain]
    rfl
  have level : scan definitionOptions false 7 {}
      ["--line", toString line, "--column", toString column, "--", file] =
      .ok (scannedPosition file line column, []) := by
    rw [scan_number lineFits (by decide) (looksLikeOption_iff.2 ⟨rfl, by decide⟩) rfl
        (fun _ => rfl),
      scan_number columnFits (by decide) (looksLikeOption_iff.2 ⟨rfl, by decide⟩) rfl
        (fun _ => rfl), scan, if_pos rfl]
    rfl
  have described : parseTask {}
      ["definition", "--line", toString line, "--column", toString column, "--", file] =
      .ok (.run none (.definition file (.position line column) .text)) :=
    parseTask_definition ["--line", toString line, "--column", toString column, "--", file] level
      (if_neg named) (place?_scannedPosition file lineFits columnFits)
  unfold parse
  dsimp only [List.length_cons, List.length_nil]
  rw [top]
  dsimp only [bind, Except.bind]
  rw [described]

/-- The position that is shown for a place on a line leads back to the place. -/
theorem placeOffset_of_onLine (file : String) {text : List Char} {offset : Nat}
    (place : OnLine text offset) :
    placeOffset file text
      (.position (shownPosition text offset).line (shownPosition text offset).column) =
      .ok offset := by
  have found := place.offset?_position
  unfold placeOffset shownPosition
  dsimp only
  rw [if_neg (by simp), Nat.add_sub_cancel, Nat.add_sub_cancel, found]
  rfl

/-- The line and the column that are shown for a binding of a file's table are accepted when they
are asked for in that file, and they lead to the binding's offset. -/
theorem placeOffset_shownPosition (reader : Script.Reader) (options : Options) (file : String)
    {text : List Char} (fits : width text < Offset.limit)
    (scripts : Table.EachScript reader options text Table.EndBehindCharacters) :
    ∃ table, Table.buildAt reader options file text = .ok table ∧
      ∀ binding ∈ table.bindings,
        let shown := shownPosition text binding.position
        (file ≠ "" → parse ["definition", "--line", toString shown.line, "--column",
            toString shown.column, "--", file] =
          .run none (.definition file (.position shown.line shown.column) .text)) ∧
        placeOffset file text (.position shown.line shown.column) = .ok binding.position := by
  obtain ⟨table, built, onLine⟩ := Table.exists_onLine reader options (Nat.le_of_lt fits) scripts
  by_cases supported : options.supports file = true
  · refine ⟨table, by rw [Table.buildAt, if_pos supported, built], ?_⟩
    intro binding member
    have place := onLine binding member
    obtain ⟨line, column⟩ := place.position_le
    refine ⟨fun named => parse_position named ?_ ?_, placeOffset_of_onLine file place⟩
    · exact Nat.le_trans (Nat.succ_le_succ line) fits
    · exact Nat.le_trans (Nat.succ_le_succ column) fits
  · refine ⟨_, by rw [Table.buildAt, if_neg supported], ?_⟩
    intro binding member
    cases member

/-- So it is in a file whose lines end in carriage returns, where a name starts with one, follows a
wide character or stands at the end of a line. -/
theorem placeOffset_shownPosition_returns :
    let text := ("<template>\r\n<p é ref='\r\nx'/></template>\r\n<script setup>let ñ\r\n</script>" ++
      "<style>\r\n.a\r\n\x7b</style>").toList
    width text < Offset.limit ∧ Table.EachScript Script.read {} text Table.EndBehindCharacters ∧
      ∃ table, Table.buildAt Script.read {} "a.vue" text = .ok table ∧
        ∀ binding ∈ table.bindings,
          let shown := shownPosition text binding.position
          ("a.vue" ≠ "" → parse ["definition", "--line", toString shown.line, "--column",
              toString shown.column, "--", "a.vue"] =
            .run none (.definition "a.vue" (.position shown.line shown.column) .text)) ∧
          placeOffset "a.vue" text (.position shown.line shown.column) = .ok binding.position := by
  intro text
  have fits : width text < Offset.limit := by decide +kernel
  have scripts : Table.EachScript Script.read {} text Table.EndBehindCharacters := by decide +kernel
  exact ⟨fits, scripts, placeOffset_shownPosition Script.read {} "a.vue" fits scripts⟩

end SfcIndex.Command
