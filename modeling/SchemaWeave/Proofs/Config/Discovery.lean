import SchemaWeave.Proofs.Command
import SchemaWeave.Proofs.Files.Parents

/-!
# The settings file that is found is the nearest one

Two searches, one in the other: over the paths above a start, the nearest first, and over the names of settings files, the
preferred ones first. `IsBest` says what the inner one gives in a directory, and `find_nearest` what both give: the best
file of the nearest directory that has one. A file that is found has one of the names, so it is never in a format that
cannot be loaded (`formatOf?_join`).
-/

namespace SchemaWeave.Config

open Files

/-- A regular file is at a path. -/
def HasFile (w : World) (p : Path) : Prop := ∃ content, w.files.find w.current p = .ok (.file content)

/-- A directory holds a settings file. -/
def HoldsSettings (w : World) (dir : Path) : Prop := ∃ name ∈ fileNames, HasFile w (dir.join name)

/-- The settings file of a directory with the most preferred name. -/
def IsBest (w : World) (dir p : Path) : Prop :=
  ∃ better name worse, fileNames = better ++ name :: worse ∧ p = dir.join name ∧ HasFile w p ∧
    ∀ other ∈ better, ¬HasFile w (dir.join other)

theorem fileNames_eq : fileNames =
    [".graphql-codegenrc.yml", ".graphql-codegenrc.yaml", ".graphql-codegenrc.json", ".graphql-codegenrc"] := by decide

section

variable {w : World} {start dir p : Path}

theorem hasFile_iff : w.sees (Host.isFile p) = true ↔ HasFile w p := sees_isFile w

theorem find?_names_eq_none :
    ((fileNames.map (Path.join dir)).find? fun path => w.sees (Host.isFile path)) = none ↔ ¬HoldsSettings w dir := by
  simp [List.find?_eq_none, hasFile_iff, HoldsSettings]

theorem find?_names_eq_some :
    ((fileNames.map (Path.join dir)).find? fun path => w.sees (Host.isFile path)) = some p ↔ IsBest w dir p := by
  simp only [List.find?_map, Option.map_eq_some_iff, List.find?_eq_some_iff_append, Function.comp_apply, hasFile_iff,
    Bool.not_eq_true', ← Bool.not_eq_true, IsBest]
  constructor
  · rintro ⟨name, ⟨hfile, better, worse, hnames, hbetter⟩, rfl⟩
    exact ⟨better, name, worse, hnames, rfl, hfile, hbetter⟩
  · rintro ⟨better, name, worse, hnames, rfl, hfile, hbetter⟩
    exact ⟨name, ⟨hfile, better, worse, hnames, hbetter⟩, rfl⟩

/-- The first of the places in a list at which a search gives something. -/
theorem findSome?_eq_some_iff_getElem? {α β : Type} {f : α → Option β} {l : List α} {b : β} : l.findSome? f = some b ↔
    ∃ n : Nat, ∃ a, l[n]? = some a ∧ f a = some b ∧ ∀ m < n, ∀ a', l[m]? = some a' → f a' = none := by
  rw [List.findSome?_eq_some_iff]
  constructor
  · rintro ⟨before, a, behind, rfl, ha, hbefore⟩
    refine ⟨before.length, a, by simp, ha, fun m hm a' ha' => hbefore a' ?_⟩
    rw [List.getElem?_append_left hm] at ha'
    exact List.mem_of_getElem? ha'
  · rintro ⟨n, a, hn, ha, hnone⟩
    obtain ⟨hlt, rfl⟩ := List.getElem?_eq_some_iff.mp hn
    refine ⟨l.take n, l[n], l.drop (n + 1), by simp, ha, fun a' ha' => ?_⟩
    obtain ⟨m, hm⟩ := List.mem_iff_getElem?.mp ha'
    obtain ⟨hlt', -⟩ := List.getElem?_eq_some_iff.mp hm
    have hmn : m < n := Nat.lt_of_lt_of_le hlt' (List.length_take_le n l)
    rw [List.getElem?_take_of_lt hmn] at hm
    exact hnone m hmn a' hm

theorem sees_find (w : World) (start : Path) : w.sees (find start) =
    start.popped.findSome? fun dir => (fileNames.map (Path.join dir)).find? fun path => w.sees (Host.isFile path) := by
  rw [find, Command.sees_firstFile, candidates, List.find?_flatMap]

/-- The search gives the best file of the nearest directory that holds one. -/
theorem sees_find_eq_some : w.sees (find start) = some p ↔
    ∃ n dir, start.up? n = some dir ∧ IsBest w dir p ∧
      ∀ m < n, ∀ nearer, start.up? m = some nearer → ¬HoldsSettings w nearer := by
  simp only [sees_find, findSome?_eq_some_iff_getElem?, Path.getElem?_popped, find?_names_eq_some, find?_names_eq_none]

/-- The search gives nothing if no directory from the start on upwards holds a settings file. -/
theorem sees_find_eq_none : w.sees (find start) = none ↔ ∀ n dir, start.up? n = some dir → ¬HoldsSettings w dir := by
  simp only [sees_find, List.findSome?_eq_none_iff, find?_names_eq_none, List.mem_iff_getElem?, Path.getElem?_popped]
  exact ⟨fun h n dir hdir => h dir ⟨n, hdir⟩, fun h dir ⟨n, hdir⟩ => h n dir hdir⟩

end

/-! ## Formats -/

theorem named_of_mem_fileNames {name : String} (h : name ∈ fileNames) : FileTree.Named name := by
  refine FileTree.isName_iff.mp ?_
  rw [fileNames_eq] at h
  revert name
  decide

/-- The directory of a settings file says nothing about its format. -/
theorem formatOf?_join (dir : Path) {name : String} (h : FileTree.Named name) : formatOf? (dir.join name) = formatOf? name := by
  have hname : Path.fileName? name = some name := by
    have hjoin := Path.fileName?_join "" h
    rwa [Path.join, FileTree.isAbsolute_of_not_mem h.slash] at hjoin
  rw [formatOf?, formatOf?, Path.extension?, Path.extension?, Path.fileName?_join dir h, hname]

theorem isSome_formatOf?_of_mem {name : String} (h : name ∈ fileNames) : (formatOf? name).isSome = true := by
  rw [fileNames_eq] at h
  revert name
  decide

theorem IsBest.isSome_formatOf? {w : World} {dir p : Path} (h : IsBest w dir p) : (formatOf? p).isSome = true := by
  obtain ⟨better, name, worse, hnames, rfl, -⟩ := h
  have hmem : name ∈ fileNames := hnames ▸ List.mem_append_right _ List.mem_cons_self
  rw [formatOf?_join dir (named_of_mem_fileNames hmem)]
  exact isSome_formatOf?_of_mem hmem

/-- Only a path in no format is refused for its format. -/
theorem ofText_ne_unsupportedFormat {p : Path} (h : (formatOf? p).isSome = true) (text : String) (q : Path) :
    ofText text p ≠ .error (.unsupportedFormat q) := by
  obtain ⟨format, hformat⟩ := Option.isSome_iff_exists.mp h
  rw [ofText, hformat]
  dsimp only
  cases (parse text format).bind validate with
  | error fault => exact fun he => nomatch he
  | ok c => exact fun he => nomatch he

theorem sees_load_ne_unsupportedFormat {p : Path} (h : (formatOf? p).isSome = true) (w : World) (q : Path) :
    w.sees (load p) ≠ .error (.unsupportedFormat q) := by
  rw [load, sees_bind w (looks_readText p)]
  cases w.sees (Host.readText p) with
  | error e => exact fun he => nomatch he
  | ok text => exact ofText_ne_unsupportedFormat h text q

/-- **The settings file that is found is the nearest one.** The search ends, and leaves the world as it is. It looks in the
start and in the paths that dropping its components one by one leaves, down to the root or the empty path, and gives a file
exactly if one of them holds a settings file: of the first of them that does, the one with the most preferred name. What it
gives can be loaded as far as its format goes. -/
theorem find_nearest (start : Path) (w : World) : ∃ found, (find start : StateM World _).run w = (found, w) ∧
    (found ≠ none ↔ ∃ n dir, start.up? n = some dir ∧ HoldsSettings w dir) ∧
    (∀ p, found = some p ↔ ∃ n dir, start.up? n = some dir ∧ IsBest w dir p ∧
      ∀ m < n, ∀ nearer, start.up? m = some nearer → ¬HoldsSettings w nearer) ∧
    (∃ n top, start.up? n = some top ∧ start.up? (n + 1) = none ∧ (top = "" ∨ top.components = ["/"])) ∧
    ∀ p, found = some p → ∀ (w' : World) q, w'.sees (load p) ≠ .error (.unsupportedFormat q) := by
  refine ⟨w.sees (find start), Prod.ext rfl (Command.looks_firstFile _ w), ?_, fun p => sees_find_eq_some, start.exists_top,
    fun p hp => ?_⟩
  · rw [Ne, sees_find_eq_none]
    push Not
    rfl
  · obtain ⟨n, dir, -, hbest, -⟩ := sees_find_eq_some.mp hp
    exact sees_load_ne_unsupportedFormat hbest.isSome_formatOf?

end SchemaWeave.Config
