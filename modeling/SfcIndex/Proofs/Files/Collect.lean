import Mathlib.Data.Finset.Card
import SfcIndex.Command.Run
import SfcIndex.Proofs.Files.Place

/-! # How often a file is listed

The paths that several texts find are listed without those that have the parts of an earlier one, so
that a place is listed once for each way to spell it. Paths without a step upwards are spelled in as
many ways as they start: a file that is found as `a.vue`, as `./a.vue` and as `/w/a.vue` is listed
three times (`collect_thrice`). It is listed once when no text brings in a dot or a slash
(`collect_once`).
-/

namespace SfcIndex.Files

namespace Finder

/-- No match of a pattern starts with a dot of its own. -/
def DropsDot (finder : Finder Id) : Prop :=
  ∀ text, ∀ path ∈ (finder.glob text).run, start path ≠ .dot

/-- A walk through a file finds the path as it is written. -/
def KeepsFiles (finder : Finder Id) (disk : Disk Id) : Prop :=
  ∀ text, (disk.kind? text).run = some .file → (finder.walk text).run = [text]

/-- The paths that several texts find, in the order of the texts. -/
def foundBy (finder : Finder Id) (texts : List String) : List String :=
  texts.flatMap fun text => (finder.search text).run

end Finder

/-- Without effects, a list of computations is the list of their results. -/
theorem run_mapM {α β : Type} (compute : α → Id β) (values : List α) :
    (values.mapM compute).run = values.map fun value => (compute value).run :=
  congrArg Id.run (List.mapM_pure (f := fun value => (compute value).run))

/-- The listed paths are the distinct ones among those that are found and wanted. -/
theorem run_collect (finder : Finder Id) (wanted : String → Bool) (texts : List String) :
    (collect finder wanted texts).run = distinctFrom [] ((finder.foundBy texts).filter wanted) := by
  rw [collect, Id.run_bind, run_mapM, Finder.foundBy, List.flatMap_def]
  rfl

/-- Paths are only left out. -/
theorem distinctFrom_sublist (seen : List (List Part)) (paths : List String) :
    (distinctFrom seen paths).Sublist paths := by
  fun_induction distinctFrom seen paths with
  | case1 => exact .slnil
  | case2 seen path rest known ih => exact .cons path ih
  | case3 seen path rest new ih => exact .cons_cons path ih

/-- No path has the parts of an earlier one, or parts that were seen before. -/
theorem distinctFrom_nodup (seen : List (List Part)) (paths : List String) :
    (∀ path ∈ distinctFrom seen paths, parts path ∉ seen) ∧
      ((distinctFrom seen paths).map parts).Nodup := by
  fun_induction distinctFrom seen paths with
  | case1 => exact ⟨by simp, .nil⟩
  | case2 seen path rest known ih => exact ih
  | case3 seen path rest new ih =>
    obtain ⟨unseen, nodup⟩ := ih
    have first : parts path ∉ seen := by simpa using new
    refine ⟨?_, ?_⟩
    · intro other member
      rcases List.mem_cons.1 member with rfl | later
      · exact first
      · exact fun known => unseen other later (List.mem_cons_of_mem _ known)
    · rw [List.map_cons, List.nodup_cons]
      refine ⟨?_, nodup⟩
      intro again
      obtain ⟨other, later, same⟩ := List.mem_map.1 again
      exact unseen other later (same ▸ List.mem_cons_self)

/-- A path is left out only for another one with the same parts. -/
theorem exists_mem_distinctFrom {seen : List (List Part)} {paths : List String} {path : String}
    (member : path ∈ paths) :
    parts path ∈ seen ∨ ∃ listed ∈ distinctFrom seen paths, parts listed = parts path := by
  fun_induction distinctFrom seen paths with
  | case1 => cases member
  | case2 seen first rest known ih =>
    rcases List.mem_cons.1 member with rfl | later
    · exact .inl (by simpa using known)
    · exact ih later
  | case3 seen first rest new ih =>
    rcases List.mem_cons.1 member with rfl | later
    · exact .inr ⟨path, List.mem_cons_self, rfl⟩
    · rcases ih later with known | ⟨listed, found, same⟩
      · rcases List.mem_cons.1 known with same | before
        · exact .inr ⟨first, List.mem_cons_self, same.symm⟩
        · exact .inl before
      · exact .inr ⟨listed, List.mem_cons_of_mem _ found, same⟩

/-- Every path has its parts among the listed ones. -/
theorem exists_mem_distinctFrom_nil {paths : List String} {path : String} (member : path ∈ paths) :
    ∃ listed ∈ distinctFrom [] paths, parts listed = parts path :=
  (exists_mem_distinctFrom member).resolve_left List.not_mem_nil

/-- Among the paths of a kind that their parts decide, as many are listed as there are values of
anything that tells their parts apart and depends on nothing else. -/
theorem countP_distinctFrom {κ : Type} [DecidableEq κ] (paths : List String) (kind : String → Bool)
    (key : String → κ)
    (kind_eq : ∀ first second, parts first = parts second → kind first = kind second)
    (key_eq : ∀ first second, parts first = parts second → key first = key second)
    (tells : ∀ first ∈ paths, ∀ second ∈ paths, kind first = true → kind second = true →
      key first = key second → parts first = parts second) :
    (distinctFrom [] paths).countP kind = ((paths.filter kind).map key).toFinset.card := by
  let listed := distinctFrom [] paths
  have known {path : String} (member : path ∈ listed.filter kind) :
      path ∈ paths ∧ kind path = true := by
    obtain ⟨inside, is⟩ := List.mem_filter.1 member
    exact ⟨(distinctFrom_sublist [] paths).subset inside, is⟩
  have keys : ((paths.filter kind).map key).toFinset = ((listed.filter kind).map key).toFinset := by
    ext value
    simp only [List.mem_toFinset, List.mem_map]
    constructor
    · rintro ⟨path, member, rfl⟩
      obtain ⟨found, is⟩ := List.mem_filter.1 member
      obtain ⟨other, inside, same⟩ := exists_mem_distinctFrom_nil found
      exact ⟨other, List.mem_filter.2 ⟨inside, (kind_eq _ _ same).trans is⟩, key_eq _ _ same⟩
    · rintro ⟨path, member, rfl⟩
      exact ⟨path, List.mem_filter.2 (known member), rfl⟩
  have nodup : ((listed.filter kind).map key).Nodup := by
    have apart : ((listed.filter kind).map parts).Nodup :=
      (distinctFrom_nodup [] paths).2.sublist (List.filter_sublist.map parts)
    refine List.Nodup.map_on ?_ apart.of_map
    intro first member second member' same
    have sameParts := tells first (known member).1 second (known member').1 (known member).2
      (known member').2 same
    exact List.inj_on_of_nodup_map apart member member' sameParts
  rw [keys, List.toFinset_card_of_nodup nodup, List.length_map, List.countP_eq_length_filter]

section

variable (directory names : List String) {paths : List String}

/-- A place is listed once for each way in which the paths that lead there are spelled. -/
theorem countP_place (paths : List String) :
    (distinctFrom [] paths).countP (place directory · = names) =
      ((paths.filter (place directory · = names)).map parts).toFinset.card := by
  refine countP_distinctFrom paths _ parts ?_ (fun _ _ same => same) fun _ _ _ _ _ _ same => same
  intro first second same
  rw [place_eq_of_parts same]

/-- Where no path has a step upwards, a place is listed once for each way in which the paths that
lead there start. -/
theorem countP_place_of_level
    (level : ∀ path ∈ paths, place directory path = names → climbs path = false) :
    (distinctFrom [] paths).countP (place directory · = names) =
      ((paths.filter (place directory · = names)).map start).toFinset.card := by
  refine countP_distinctFrom paths _ start ?_ (fun _ _ => start_eq_of_parts) ?_
  · intro first second same
    rw [place_eq_of_parts same]
  · intro first member second member' leads leads' begins
    have leads := of_decide_eq_true leads
    have leads' := of_decide_eq_true leads'
    exact parts_eq_of_place (level first member leads) (level second member' leads') begins
      (leads.trans leads'.symm)

/-- Among paths without a step upwards that start with a name, no place is listed twice. -/
theorem countP_place_le_one
    (plain : ∀ path ∈ paths, climbs path = false ∧ start path = .plain) :
    (distinctFrom [] paths).countP (place directory · = names) ≤ 1 := by
  rw [countP_place_of_level directory names fun path member _ => (plain path member).1]
  have starts : ((paths.filter (place directory · = names)).map start).toFinset ⊆ {.plain} := by
    intro begin member
    obtain ⟨path, inside, rfl⟩ := List.mem_map.1 (List.mem_toFinset.1 member)
    exact Finset.mem_singleton.2 (plain path (List.mem_filter.1 inside).1).2
  exact Finset.card_le_card starts

end

/-- When every text is a pattern or names a file and none of these files is written with a dot in
front, nothing that is found starts with one. -/
theorem Finder.start_ne_dot {finder : Finder Id} {disk : Disk Id} (globs : finder.DropsDot)
    (walks : finder.KeepsFiles disk) {texts : List String}
    (files : ∀ text ∈ texts, isPattern text = false →
      (disk.kind? text).run = some .file ∧ start text ≠ .dot)
    {path : String} (member : path ∈ finder.foundBy texts) : start path ≠ .dot := by
  obtain ⟨text, known, found⟩ := List.mem_flatMap.1 member
  unfold search at found
  cases pattern : isPattern text with
  | true =>
    rw [if_pos pattern] at found
    exact globs text path found
  | false =>
    obtain ⟨isFile, undotted⟩ := files text known pattern
    rw [if_neg (by simp [pattern]), walks text isFile, List.mem_singleton] at found
    rw [found]
    exact undotted

/-- Every wanted path that is found is listed with its parts, in the order of the texts, and a place
is listed once for each way in which the paths that lead there are spelled. Where none of them has a
step upwards, these are the ways in which they start. A place is listed once when nothing that is
found has a step upwards or a slash in front, and every text is a pattern or names a file without a
dot in front. -/
theorem collect_once (finder : Finder Id) (disk : Disk Id) (globs : finder.DropsDot)
    (walks : finder.KeepsFiles disk) (directory : List String) (wanted : String → Bool)
    (texts : List String) :
    let found := (finder.foundBy texts).filter wanted
    let listed := (collect finder wanted texts).run
    let leads := fun names path => decide (place directory path = names)
    listed.Sublist found ∧
      (∀ path ∈ found, ∃ same ∈ listed, parts same = parts path) ∧
      (∀ names, listed.countP (leads names) =
        ((found.filter (leads names)).map parts).toFinset.card) ∧
      (∀ names, (∀ path ∈ found, place directory path = names → climbs path = false) →
        listed.countP (leads names) = ((found.filter (leads names)).map start).toFinset.card) ∧
      ((∀ path ∈ found, climbs path = false ∧ start path ≠ .slash) →
        (∀ text ∈ texts, isPattern text = false →
          (disk.kind? text).run = some .file ∧ start text ≠ .dot) →
        ∀ names, listed.countP (leads names) ≤ 1) := by
  intro found listed leads
  have listed_eq : listed = distinctFrom [] found := run_collect finder wanted texts
  rw [listed_eq]
  refine ⟨distinctFrom_sublist [] found, fun path => exists_mem_distinctFrom_nil, ?_, ?_, ?_⟩
  · exact fun names => countP_place directory names found
  · exact fun names => countP_place_of_level directory names
  · intro relative files names
    refine countP_place_le_one directory names fun path member => ?_
    obtain ⟨level, unrooted⟩ := relative path member
    have undotted := Finder.start_ne_dot globs walks files (List.mem_filter.1 member).1
    refine ⟨level, ?_⟩
    cases begins : start path with
    | plain => rfl
    | dot => exact absurd begins undotted
    | slash => exact absurd begins unrooted

/-- Two files in a directory below the top of the file system. -/
def shelf : Disk Id :=
  let files := Tree.ofFiles [("a.vue", "<style/>".toUTF8), ("b.vue", "<style/>".toUTF8)]
  (files.under ["w"]).disk ["w"]

/-- Finds what is on the shelf. -/
def shelfFinder : Finder Id where
  glob text := if text = "*.vue" then ["a.vue", "b.vue"] else []
  walk text := if (shelf.kind? text).run = some .file then [text] else []

theorem shelfFinder_dropsDot : shelfFinder.DropsDot := by
  intro text path found
  change path ∈ if text = "*.vue" then ["a.vue", "b.vue"] else [] at found
  split at found
  · rcases List.mem_pair.1 found with rfl | rfl <;> decide +kernel
  · cases found

/-- A file on the shelf is found as it is written. -/
theorem shelfFinder_keepsFiles : shelfFinder.KeepsFiles shelf :=
  fun _ isFile => if_pos isFile

/-- A pattern and the names of the files that it matches list each file once. -/
theorem collect_once_mixed :
    let texts := ["*.vue", "b.vue", "a.vue"]
    let listed := (collect shelfFinder (Command.isCandidate {}) texts).run
    shelfFinder.DropsDot ∧ shelfFinder.KeepsFiles shelf ∧
      ∀ names, listed.countP (fun path => place ["w"] path = names) ≤ 1 := by
  intro texts listed
  have once := collect_once shelfFinder shelf shelfFinder_dropsDot shelfFinder_keepsFiles ["w"]
    (Command.isCandidate {}) texts
  have relative : ∀ path ∈ (shelfFinder.foundBy texts).filter (Command.isCandidate {}),
      climbs path = false ∧ start path ≠ .slash := by
    decide +kernel
  have files : ∀ text ∈ texts, isPattern text = false →
      (shelf.kind? text).run = some .file ∧ start text ≠ .dot := by
    decide +kernel
  exact ⟨shelfFinder_dropsDot, shelfFinder_keepsFiles, once.2.2.2.2 relative files⟩

/-- A file that is found as `a.vue`, as `./a.vue` and as `/w/a.vue` is listed three times. -/
theorem collect_thrice :
    let texts := ["a.vue", "./a.vue", "/w/a.vue"]
    let listed := (collect shelfFinder (Command.isCandidate {}) texts).run
    shelfFinder.DropsDot ∧ shelfFinder.KeepsFiles shelf ∧ listed = texts ∧
      ∀ path ∈ listed, (shelf.kind? path).run = some .file ∧ place ["w"] path = ["w", "a.vue"] := by
  refine ⟨shelfFinder_dropsDot, shelfFinder_keepsFiles, ?_⟩
  decide +kernel

end SfcIndex.Files
