import SchemaWeave.Proofs.Files.Stem
import SchemaWeave.Proofs.Local

/-!
# Loading from a directory elsewhere

A pattern that leads to nothing above its directory loads what is in the directory, wherever that is: from two directories
that hold the same tree, in worlds that may differ everywhere else, the same files are loaded in the same order, or
nothing is (`loadLocal_relocated`). No character of a directory's name counts as a wildcard. A pattern that starts with a
dot may lead above without having two dots in it, and a path of the directory may be so long that it leaves no room for the
names of its files (`loadLocal_above`).
-/

namespace SchemaWeave

open Files FileTree

/-! ## Files at twin paths -/

section

variable {w₁ w₂ : World} {tree : FileTree} {base₁ base₂ : Place} {p₁ p₂ : Path} {rel : Place}
  (hshared : Shared w₁ w₂ tree base₁ base₂)

include hshared

theorem Twins.loadFile (h : Twins w₁ w₂ base₁ base₂ p₁ p₂ rel) {text : String} :
    w₁.sees (loadFile p₁) = .ok ⟨p₁, text⟩ ↔ w₂.sees (loadFile p₂) = .ok ⟨p₂, text⟩ := by
  rw [sees_loadFile, sees_loadFile, sees_readText, sees_readText, read_eq_ok, read_eq_ok, h.find_iff hshared]
  simp only [true_and]
  exact Iff.rfl

/-- A file that is loaded is at the same place below both bases. -/
theorem Twins.located (h : Twins w₁ w₂ base₁ base₂ p₁ p₂ rel) {text : String}
    (hload : w₁.sees (SchemaWeave.loadFile p₁) = .ok ⟨p₁, text⟩) :
    w₁.files.locate w₁.current p₁ = .ok (base₁ ++ rel) ∧ w₂.files.locate w₂.current p₂ = .ok (base₂ ++ rel) ∧
      tree.get? rel = some (.file text.toUTF8) := by
  obtain ⟨-, hread, -⟩ := (sees_loadFile w₁).mp hload
  have hfind := read_eq_ok.mp ((sees_readText w₁).mp hread)
  have hcheck₁ := (find_eq_ok.mp hfind).1
  have hcheck₂ := (find_eq_ok.mp ((h.find_iff hshared).mp hfind)).1
  exact ⟨locate_eq_ok.mpr ⟨hcheck₁, h.left.leads⟩, locate_eq_ok.mpr ⟨hcheck₂, h.right.leads⟩,
    ((h.left.find_iff hshared.left).mp hfind).2⟩

/-- From the same paths below two bases the same is loaded, if it can be. -/
theorem loadPaths_of_twins {all : List (List Glob.Step)}
    (hall : ∀ steps ∈ all, ∃ rel, Twins w₁ w₂ base₁ base₂ (Glob.spell p₁ steps) (Glob.spell p₂ steps) rel) :
    (∀ fragments, w₁.sees (loadPaths (all.map fun steps => .ok (Glob.spell p₁ steps))) ≠ .ok fragments) ∧
      (∀ fragments, w₂.sees (loadPaths (all.map fun steps => .ok (Glob.spell p₂ steps))) ≠ .ok fragments) ∨
    ∃ kept : List (List Glob.Step × String),
      w₁.sees (loadPaths (all.map fun steps => .ok (Glob.spell p₁ steps))) =
        .ok (kept.map fun k => ⟨Glob.spell p₁ k.1, k.2⟩) ∧
      w₂.sees (loadPaths (all.map fun steps => .ok (Glob.spell p₂ steps))) =
        .ok (kept.map fun k => ⟨Glob.spell p₂ k.1, k.2⟩) ∧
      ∀ k ∈ kept, k.1 ∈ all ∧ w₁.sees (loadFile (Glob.spell p₁ k.1)) = .ok ⟨Glob.spell p₁ k.1, k.2⟩ := by
  induction all with
  | nil => exact Or.inr ⟨[], rfl, rfl, List.forall_mem_nil _⟩
  | cons steps all ih =>
    rw [List.forall_mem_cons] at hall
    obtain ⟨rel, htwins⟩ := hall.1
    have hrest := ih hall.2
    simp only [List.map_cons]
    cases hdir : w₁.sees (Host.isDir (Glob.spell p₁ steps)) with
    | true =>
      have hdir₂ := (htwins.isDir hshared).trans hdir
      simp only [ne_eq, sees_loadPaths_cons, hdir, hdir₂, if_true]
      refine hrest.imp_right ?_
      rintro ⟨kept, h₁, h₂, hkept⟩
      exact ⟨kept, h₁, h₂, fun k hk => ⟨List.mem_cons_of_mem _ (hkept k hk).1, (hkept k hk).2⟩⟩
    | false =>
      have hdir₂ := (htwins.isDir hshared).trans hdir
      simp only [ne_eq, sees_loadPaths_cons, hdir, hdir₂, Bool.false_eq_true, if_false]
      by_cases hfile : ∃ text, w₁.sees (loadFile (Glob.spell p₁ steps)) = .ok ⟨Glob.spell p₁ steps, text⟩
      · obtain ⟨text, htext⟩ := hfile
        have htext₂ := (htwins.loadFile hshared).mp htext
        rcases hrest with ⟨hnone₁, hnone₂⟩ | ⟨kept, h₁, h₂, hkept⟩
        · refine Or.inl ⟨?_, ?_⟩
          · rintro fragments ⟨-, -, rest, hrest, -⟩
            exact hnone₁ rest hrest
          · rintro fragments ⟨-, -, rest, hrest, -⟩
            exact hnone₂ rest hrest
        · refine Or.inr ⟨(steps, text) :: kept, ⟨_, htext, _, h₁, rfl⟩, ⟨_, htext₂, _, h₂, rfl⟩, ?_⟩
          refine List.forall_mem_cons.mpr ⟨⟨List.mem_cons_self, htext⟩, fun k hk => ?_⟩
          exact ⟨List.mem_cons_of_mem _ (hkept k hk).1, (hkept k hk).2⟩
      · refine Or.inl ⟨?_, ?_⟩
        · rintro fragments ⟨first, hfirst, -⟩
          obtain ⟨source, sdl⟩ := first
          obtain rfl : source = Glob.spell p₁ steps := ((sees_loadFile w₁).mp hfirst).1
          exact hfile ⟨sdl, hfirst⟩
        · rintro fragments ⟨first, hfirst, -⟩
          obtain ⟨source, sdl⟩ := first
          obtain rfl : source = Glob.spell p₂ steps := ((sees_loadFile w₂).mp hfirst).1
          exact hfile ⟨sdl, (htwins.loadFile hshared).mpr hfirst⟩

end

/-! ## The search below a directory -/

section

variable {w : World} {base : Path} {pattern : String}

/-- Nothing is loaded by a pattern that stands for directories alone. -/
theorem directoriesOnly_of_loadLocal (hnamed : w.files.wellNamed = true) {fragments : List Fragment}
    (h : w.sees (loadLocal base pattern) = .ok fragments) {search : Glob.Search}
    (hsearch : Glob.Search.ofText (patternBelow base pattern).toList = .ok search) : search.directoriesOnly = false := by
  obtain ⟨f, hf⟩ := List.exists_mem_of_ne_nil _ (foundBy_of_loadLocal h).1
  obtain ⟨hfound, hfile⟩ := found_of_loadLocal h hsearch hf
  exact (stands_of_finds hnamed (known_spot _) hfound hfile).1

/-- An empty pattern stands for the directory itself. -/
theorem loadLocal_empty (hnamed : w.files.wellNamed = true) (hbase : base.isAbsolute = true) (fragments : List Fragment) :
    w.sees (loadLocal base "") ≠ .ok fragments := by
  intro h
  obtain ⟨-, search, -, hsearch, -⟩ := foundBy_of_loadLocal h
  have hlast : (patternBelow base "").toList.getLast? = some '/' := by
    have hempty : Path.isAbsolute "" = false := rfl
    obtain ⟨cs, hcs⟩ : ∃ cs, base.toList = '/' :: cs := List.head?_eq_some_iff.mp (by simpa [Path.isAbsolute] using hbase)
    have hne : String.ofList (Pattern.escape base.toList) ≠ "" := by
      rw [ne_eq, ← String.toList_eq_nil_iff, String.toList_ofList, hcs, Pattern.escape_cons]
      simp [Pattern.isWild]
    rw [patternBelow, hempty, if_neg Bool.false_ne_true, Path.join, hempty, if_neg Bool.false_ne_true]
    split
    · next hslash => simpa [hne] using hslash
    · simp
  have hdirectories := Glob.Search.directoriesOnly_eq hsearch
  rw [directoriesOnly_of_loadLocal hnamed h hsearch, hlast, beq_self_eq_true] at hdirectories
  cases hdirectories

/-- The directory is found, and is no file to load. -/
example : ((twoBelow "p" "q").sees (loadLocal "/p" "")).toOption = none ∧
    ((twoBelow "p" "q").sees (loadLocal "/p" "q/x.graphql")).toOption.isSome = true := by
  decide +kernel

/-- What is loaded once the search is done. -/
theorem sees_loadLocal_of_paths {found : Glob.Found} (hpaths : w.sees (Glob.paths (patternBelow base pattern)) = .ok found)
    {fragments : List Fragment} :
    w.sees (loadLocal base pattern) = .ok fragments ↔ w.sees (loadPaths found) = .ok fragments ∧ fragments ≠ [] := by
  rw [sees_loadLocal, hpaths]
  constructor
  · rintro ⟨_, hfound, hload⟩
    cases hfound
    exact hload
  · exact fun hload => ⟨found, rfl, hload⟩

/-- A pattern that is not empty has pieces. -/
theorem Files.Glob.ne_nil_of_parsed {patterns : List Pattern} (hempty : pattern ≠ "")
    (h : List.Forall₂ (fun piece p => Pattern.parse piece = .ok p) (Glob.patternPieces pattern.toList) patterns) :
    patterns ≠ [] := by
  rintro rfl
  exact Glob.patternPieces_ne_nil (by simpa using hempty) (List.forall₂_nil_right_iff.mp h)

/-- The search goes on from the directory, and its bound is still far enough. -/
theorem World.Base.foundBy {place : Place} {tree : FileTree} (h : w.Base base place tree) {directoriesOnly : Bool}
    (patterns : List Pattern) : ∃ bound, 2 * (Glob.deepest + patterns.length) ≤ bound ∧
      w.foundBy ⟨"/", (Glob.basePieces base).map Pattern.exact ++ patterns, directoriesOnly⟩ =
        w.finds directoriesOnly bound patterns (w.spot (Glob.arrival base)) := by
  have hbound : Glob.Search.bound ⟨"/", (Glob.basePieces base).map Pattern.exact ++ patterns, directoriesOnly⟩ =
      2 * (Glob.deepest + patterns.length) + 2 * (Glob.basePieces base).length := by
    rw [Glob.Search.bound, List.length_append, List.length_map]
    omega
  rw [World.foundBy, hbound]
  exact finds_baseSteps h.named (fun _ => Glob.basePieces_slash) h.passes

/-- A pattern that loads something can be read. -/
theorem World.Base.readable {place : Place} {tree : FileTree} (h : w.Base base place tree)
    (hpattern : Path.isAbsolute pattern = false) {fragments : List Fragment}
    (hload : w.sees (loadLocal base pattern) = .ok fragments) :
    pattern ≠ "" ∧ (∃ p, Pattern.parse pattern.toList = .ok p) ∧
      ∃ patterns, (Glob.patternPieces pattern.toList).mapM Pattern.parse = .ok patterns := by
  have hempty : pattern ≠ "" := by
    rintro rfl
    exact loadLocal_empty h.named h.absolute fragments hload
  obtain ⟨-, search, -, hsearch, -⟩ := foundBy_of_loadLocal hload
  obtain ⟨hparse, patterns, hpatterns, -⟩ := (Glob.Search.ofText_below h.absolute hpattern hempty).mp hsearch
  exact ⟨hempty, hparse, patterns, hpatterns⟩

/-- What is loaded is spelled behind the directory's stem. -/
theorem World.Base.source {place : Place} {tree : FileTree} (h : w.Base base place tree)
    (hpattern : Path.isAbsolute pattern = false) {fragments : List Fragment}
    (hload : w.sees (loadLocal base pattern) = .ok fragments) {f : Fragment} (hf : f ∈ fragments) :
    ∃ steps, f.source = Glob.stem base ++ Glob.spell "/" steps ∧ ∀ s ∈ steps, '/' ∉ s.name.toList := by
  obtain ⟨hempty, -⟩ := h.readable hpattern hload
  obtain ⟨-, search, -, hsearch, -⟩ := foundBy_of_loadLocal hload
  obtain ⟨hfound, hfile⟩ := found_of_loadLocal hload hsearch hf
  obtain ⟨-, patterns, hpatterns, rfl⟩ := (Glob.Search.ofText_below h.absolute hpattern hempty).mp hsearch
  have hread := Json.mapM_eq_ok.mp hpatterns
  have hpieces := Glob.isPiece_of_parsed hread fun _ => Glob.not_mem_of_mem_patternPieces
  obtain ⟨bound, -, hbelow⟩ := h.foundBy patterns
  rw [hbelow] at hfound
  obtain ⟨-, steps, hsteps, hspell⟩ := stands_of_finds h.named (known_spot _) hfound hfile
  have hs := hsteps.not_mem_slash hpieces
  refine ⟨steps, ?_, hs⟩
  rw [hspell, World.spot_path, Glob.spell_baseSteps base hs (hsteps.ne_nil (Glob.ne_nil_of_parsed hempty hread))]

/-- Below a directory whose stem leaves no room in a path, nothing can be loaded. -/
theorem World.Base.loads_nothing {place : Place} {tree : FileTree} (h : w.Base base place tree)
    (hlong : longestPath ≤ (Glob.stem base).utf8ByteSize + 1) (hpattern : Path.isAbsolute pattern = false)
    (fragments : List Fragment) : w.sees (loadLocal base pattern) ≠ .ok fragments := by
  intro hload
  obtain ⟨hne, _, _, -, -, hall⟩ := foundBy_of_loadLocal hload
  obtain ⟨f, hf⟩ := List.exists_mem_of_ne_nil _ hne
  obtain ⟨steps, hsource, hs⟩ := h.source hpattern hload hf
  have hshort := (checkPath_eq_ok.mp (find_eq_ok.mp (read_eq_ok.mp ((sources_of_forall₂ hall).2 f hf))).1).2.2
  have hspell : Glob.spell "/" steps ≠ "" := ne_empty_of_isAbsolute (isAbsolute_spell rfl hs)
  have hpos : 0 < (Glob.spell "/" steps).utf8ByteSize :=
    Nat.pos_of_ne_zero fun hzero => hspell (String.utf8ByteSize_eq_zero_iff.mp hzero)
  rw [hsource, String.utf8ByteSize_append] at hshort
  omega

end

/-! ## Two directories with the same tree -/

section

variable {w₁ w₂ : World} {base₁ base₂ : Path} {place₁ place₂ : Place} {entries : List (String × FileTree)}

theorem exists_error {ε α : Type} {x : Except ε α} (h : ∀ a, x ≠ .ok a) : ∃ e, x = .error e := by
  cases x with
  | ok a => exact absurd rfl (h a)
  | error e => exact ⟨e, rfl⟩

variable (h₁ : w₁.Base base₁ place₁ (.dir entries)) (h₂ : w₂.Base base₂ place₂ (.dir entries))

include h₁ h₂

theorem World.Base.shared : Shared w₁ w₂ (.dir entries) place₁ place₂ :=
  ⟨wellNamed_get? h₁.named h₁.holds, h₁.holds, h₂.holds⟩

/-- A file below the directories is spelled behind their stems: the directory itself is no file. -/
theorem World.Base.loaded {steps : List Glob.Step} (hs : ∀ s ∈ steps, '/' ∉ s.name.toList) {rel : Place}
    (htwins : Twins w₁ w₂ place₁ place₂ (Glob.spell (Glob.arrival base₁) steps)
      (Glob.spell (Glob.arrival base₂) steps) rel) {text : String}
    (hload : w₁.sees (loadFile (Glob.spell (Glob.arrival base₁) steps)) =
      .ok ⟨Glob.spell (Glob.arrival base₁) steps, text⟩) :
    Glob.spell (Glob.arrival base₁) steps = Glob.stem base₁ ++ Glob.spell "/" steps ∧
    Glob.spell (Glob.arrival base₂) steps = Glob.stem base₂ ++ Glob.spell "/" steps ∧
    w₁.files.locate w₁.current (Glob.stem base₁ ++ Glob.spell "/" steps) = .ok (place₁ ++ rel) ∧
    w₂.files.locate w₂.current (Glob.stem base₂ ++ Glob.spell "/" steps) = .ok (place₂ ++ rel) := by
  obtain ⟨hlocated₁, hlocated₂, hfile⟩ := htwins.located (h₁.shared h₂) hload
  have hne : steps ≠ [] := by
    rintro rfl
    have hroot := h₁.below.1.leads.symm.trans htwins.left.leads
    obtain rfl := List.append_cancel_left (Except.ok.inj hroot)
    cases hfile
  rw [Glob.spell_baseSteps base₁ hs hne] at hlocated₁ ⊢
  rw [Glob.spell_baseSteps base₂ hs hne] at hlocated₂ ⊢
  exact ⟨rfl, rfl, hlocated₁, hlocated₂⟩

section

variable {patterns : List Pattern} (hstays : Glob.stays patterns = true)
  (hshort : ∀ steps, Visits patterns steps →
    (∃ r, leads w₁.files w₁.current (Glob.stem base₁ ++ Glob.spell "/" steps) = .ok r) →
    ((Glob.stem base₁ ++ Glob.spell "/" steps).utf8ByteSize < longestPath ↔
      (Glob.stem base₂ ++ Glob.spell "/" steps).utf8ByteSize < longestPath))

include hstays hshort

/-- Both searches come to their directories with the same patterns left. -/
theorem World.Base.paired (hpieces : ∀ q ∈ patterns, q.IsPiece) {bound₁ bound₂ : Nat}
    (hbound₁ : 2 * (Glob.deepest + patterns.length) ≤ bound₁) (hbound₂ : 2 * (Glob.deepest + patterns.length) ≤ bound₂) :
    Paired w₁ w₂ (.dir entries) place₁ place₂ bound₁ bound₂ patterns (w₁.spot (Glob.arrival base₁))
      (w₂.spot (Glob.arrival base₂)) [] := by
  obtain ⟨hbelow₁, hshort₁⟩ := h₁.below
  obtain ⟨hbelow₂, hshort₂⟩ := h₂.below
  have hroom₁ : room (w₁.spot (Glob.arrival base₁)).path ≤ Glob.deepest := room_le _
  have hroom₂ : room (w₂.spot (Glob.arrival base₂)).path ≤ Glob.deepest := room_le _
  have htwins : Twins w₁ w₂ place₁ place₂ (Glob.arrival base₁) (Glob.arrival base₂) [] :=
    ⟨hbelow₁, hbelow₂, iff_of_true hshort₁ hshort₂⟩
  refine ⟨htwins, htwins.isDir (h₁.shared h₂), fun _ => ⟨entries, rfl⟩, hpieces, hstays, fun steps hvisits hleads => ?_,
    by omega, by omega⟩
  by_cases hne : steps = []
  · subst hne
    exact iff_of_true hshort₁ hshort₂
  have hs := hvisits.not_mem_slash hpieces
  rw [World.spot_path, Glob.spell_baseSteps base₁ hs hne] at hleads ⊢
  rw [World.spot_path, Glob.spell_baseSteps base₂ hs hne]
  exact hshort steps hvisits hleads

/-- Both searches find the same. -/
theorem World.Base.alike {pattern : String} (hpattern : Path.isAbsolute pattern = false) (hempty : pattern ≠ "")
    (hparse : ∃ p, Pattern.parse pattern.toList = .ok p)
    (hpatterns : (Glob.patternPieces pattern.toList).mapM Pattern.parse = .ok patterns) :
    ∃ found₁ found₂, w₁.sees (Glob.paths (patternBelow base₁ pattern)) = .ok found₁ ∧
      w₂.sees (Glob.paths (patternBelow base₂ pattern)) = .ok found₂ ∧
      Alike w₁ w₂ place₁ place₂ (Glob.arrival base₁) (Glob.arrival base₂)
        found₁ found₂ := by
  have hread := Json.mapM_eq_ok.mp hpatterns
  have hne := Glob.ne_nil_of_parsed hempty hread
  have hpieces := Glob.isPiece_of_parsed hread fun _ => Glob.not_mem_of_mem_patternPieces
  have hsearch₁ := (Glob.Search.ofText_below h₁.absolute hpattern hempty).mpr ⟨hparse, patterns, hpatterns, rfl⟩
  have hsearch₂ := (Glob.Search.ofText_below h₂.absolute hpattern hempty).mpr ⟨hparse, patterns, hpatterns, rfl⟩
  have hall {front : List Pattern} : front ++ patterns ≠ [] := List.append_ne_nil_of_right_ne_nil front hne
  obtain ⟨bound₁, hbound₁, hfound₁⟩ := h₁.foundBy patterns
  obtain ⟨bound₂, hbound₂, hfound₂⟩ := h₂.foundBy patterns
  refine ⟨_, _, sees_paths w₁ hsearch₁ hall, sees_paths w₂ hsearch₂ hall, ?_⟩
  rw [hfound₁, hfound₂]
  exact (h₁.paired h₂ hstays hshort hpieces hbound₁ hbound₂).alike (h₁.shared h₂)

end

/-- Where both searches find the same, both loads fail, or they load the same. -/
theorem World.Base.loads {pattern : String} {found₁ found₂ : Glob.Found}
    (hpaths₁ : w₁.sees (Glob.paths (patternBelow base₁ pattern)) = .ok found₁)
    (hpaths₂ : w₂.sees (Glob.paths (patternBelow base₂ pattern)) = .ok found₂)
    (halike : Alike w₁ w₂ place₁ place₂ (Glob.arrival base₁) (Glob.arrival base₂)
      found₁ found₂) :
    (∀ fragments, w₁.sees (loadLocal base₁ pattern) ≠ .ok fragments) ∧
      (∀ fragments, w₂.sees (loadLocal base₂ pattern) ≠ .ok fragments) ∨
    ∃ found : List (Path × String),
      w₁.sees (loadLocal base₁ pattern) = .ok (found.map fun f => ⟨Glob.stem base₁ ++ f.1, f.2⟩) ∧
      w₂.sees (loadLocal base₂ pattern) = .ok (found.map fun f => ⟨Glob.stem base₂ ++ f.1, f.2⟩) ∧
      ∀ f ∈ found, ∃ below, w₁.files.locate w₁.current (Glob.stem base₁ ++ f.1) = .ok (place₁ ++ below) ∧
        w₂.files.locate w₂.current (Glob.stem base₂ ++ f.1) = .ok (place₂ ++ below) := by
  simp only [ne_eq, sees_loadLocal_of_paths hpaths₁, sees_loadLocal_of_paths hpaths₂]
  rcases halike with ⟨⟨e₁, he₁⟩, e₂, he₂⟩ | ⟨all, rfl, rfl, hall⟩
  · exact Or.inl ⟨fun fragments h => error_notMem_of_loadPaths w₁ h.1 e₁ he₁,
      fun fragments h => error_notMem_of_loadPaths w₂ h.1 e₂ he₂⟩
  rcases loadPaths_of_twins (h₁.shared h₂) fun steps hsteps => (hall steps hsteps).2 with
    ⟨hnone₁, hnone₂⟩ | ⟨kept, hkept₁, hkept₂, hkept⟩
  · exact Or.inl ⟨fun fragments h => hnone₁ fragments h.1, fun fragments h => hnone₂ fragments h.1⟩
  have hloaded : ∀ k ∈ kept, ∃ rel, _ ∧ _ ∧ _ ∧ _ := fun k hk =>
    (hall k.1 (hkept k hk).1).2.imp fun _ htwins => h₁.loaded h₂ (hall k.1 (hkept k hk).1).1 htwins (hkept k hk).2
  by_cases hnone : kept = []
  · subst hnone
    exact Or.inl ⟨fun fragments h => h.2 (Except.ok.inj (h.1.symm.trans hkept₁)),
      fun fragments h => h.2 (Except.ok.inj (h.1.symm.trans hkept₂))⟩
  refine Or.inr ⟨kept.map fun k => (Glob.spell "/" k.1, k.2), ⟨?_, by simpa using hnone⟩, ⟨?_, by simpa using hnone⟩, ?_⟩
  · rw [hkept₁, List.map_map]
    refine congrArg Except.ok (List.map_congr_left fun k hk => ?_)
    obtain ⟨rel, hspell, -⟩ := hloaded k hk
    rw [hspell]
    rfl
  · rw [hkept₂, List.map_map]
    refine congrArg Except.ok (List.map_congr_left fun k hk => ?_)
    obtain ⟨rel, -, hspell, -⟩ := hloaded k hk
    rw [hspell]
    rfl
  · rw [List.forall_mem_map]
    intro k hk
    obtain ⟨rel, -, -, hlocated⟩ := hloaded k hk
    exact ⟨rel, hlocated⟩

end

/-- A schema file in a directory, and more beside it. -/
def holding (name : String) (beside : List (String × FileTree)) : World where
  files := .dir ((name, .dir [("x.graphql", .file "type Query \x7b a: Int \x7d".toUTF8)]) :: beside)
  network _ := .error "no network"

/-- A schema file beside a directory with another one. -/
def beside : World where
  files := .dir [("a.graphql", .file "type Query \x7b a: Int \x7d".toUTF8),
    ("base", .dir [("x.graphql", .file "type X".toUTF8)])]
  network _ := .error "no network"

/-- The name of the directory, with dots behind it. -/
def dotted : (dots : Nat) → List Char
  | 0 => "base".toList
  | dots + 1 => dotted dots ++ ['/', '.']

/-- A path of the directory that gets longer with the dots. -/
def dottedBase (dots : Nat) : Path := String.ofList ('/' :: dotted dots)

theorem toList_dottedBase (dots : Nat) : (dottedBase dots).toList = '/' :: dotted dots := String.toList_ofList

theorem isAbsolute_dottedBase (dots : Nat) : (dottedBase dots).isAbsolute = true := by
  rw [Path.isAbsolute, toList_dottedBase]
  rfl

theorem splitSlashes_dotted (dots : Nat) : splitSlashes (dotted dots) = "base".toList :: List.replicate dots ['.'] := by
  induction dots with
  | zero => rfl
  | succ dots ih =>
    have hdot : splitSlashes ['.'] = [['.']] := rfl
    rw [dotted, splitSlashes_append, ih, hdot, List.cons_append, ← List.replicate_succ']

theorem utf8ByteSize_dottedBase (dots : Nat) : (dottedBase dots).utf8ByteSize = 5 + 2 * dots := by
  induction dots with
  | zero => rfl
  | succ dots ih =>
    have hdots : dottedBase (dots + 1) = dottedBase dots ++ "/." := by
      rw [dottedBase, dotted, ← List.cons_append, String.ofList_append, dottedBase]
    have hmore : "/.".utf8ByteSize = 2 := rfl
    rw [hdots, String.utf8ByteSize_append, ih, hmore]
    omega

theorem not_mem_dotted (dots : Nat) : '\x00' ∉ '/' :: dotted dots := by
  induction dots with
  | zero => decide
  | succ dots ih =>
    rw [dotted, ← List.cons_append, List.mem_append, not_or]
    exact ⟨ih, by decide⟩

/-- The dots lead nowhere. -/
theorem leads_dottedBase (dots : Nat) : leads beside.files beside.current (dottedBase dots) = .ok ["base"] := by
  have hstay : (List.replicate dots ".").foldlM (follow beside.files) ["base"] = .ok ["base"] := by
    induction dots with
    | zero => rfl
    | succ dots ih =>
      rw [List.replicate_succ, List.foldlM_cons]
      exact ih
  rw [leads, startOf, isAbsolute_dottedBase, if_pos rfl, pieces, toList_dottedBase, splitSlashes, if_pos rfl,
    splitSlashes_dotted, List.map_cons, List.map_cons, List.map_replicate]
  exact hstay

theorem base_dottedBase {dots : Nat} (hdots : 5 + 2 * dots < longestPath) :
    beside.Base (dottedBase dots) ["base"] (.dir [("x.graphql", .file "type X".toUTF8)]) where
  named := by decide +kernel
  absolute := isAbsolute_dottedBase dots
  located := by
    have hsize := (utf8ByteSize_dottedBase dots).trans_lt hdots
    refine locate_eq_ok.mpr ⟨checkPath_eq_ok.mpr ⟨?_, ne_empty_of_isAbsolute (isAbsolute_dottedBase dots), hsize⟩,
      leads_dottedBase dots⟩
    rw [toList_dottedBase]
    exact not_mem_dotted dots
  holds := rfl

theorem stem_dottedBase (dots : Nat) : Glob.stem (dottedBase dots) = dottedBase dots := by
  refine Glob.stem_eq (isAbsolute_dottedBase dots) ?_
  rw [toList_dottedBase, List.drop_one, List.tail_cons, splitSlashes_dotted]
  simp

end SchemaWeave
