import Mathlib.Data.List.DropRight
import SchemaWeave.Proofs.Files.Steps

/-!
# What a pattern stands for

The pieces of a pattern stand for the steps that lead to a file (`Stands`): a piece without wildcards for its own text, any
other for the names of entries that it matches, two stars for directories to pass. A search spells no other files
(`stands_of_finds`), and it spells all steps that can be taken one by one (`finds_of_stands`): the bound on a search is not
met before paths are too long (`Stands.length_le`).
-/

namespace SchemaWeave

open Files FileTree

/-! ## Steps of a search -/

section

variable (w : World) (directoriesOnly : Bool) (bound : Nat) (pattern : Pattern) (patterns : List Pattern) (s : Glob.Spot)

/-- An entry is compared with the pattern for its name. -/
theorem visit_matched (h : pattern.isRecursive = false) (name : String) :
    w.sees (Glob.visit directoriesOnly (bound + 1) (pattern :: patterns) s name) =
      if pattern.isMatch name.toList then w.finds directoriesOnly bound patterns s else [] := by
  rw [sees_visit, Glob.further, List.head?_cons, Option.map_some, Option.getD_some, h, if_neg Bool.false_ne_true,
    Bool.false_and, if_neg Bool.false_ne_true, List.append_nil, World.seesAt]

/-- Two stars pass by an entry, or end there, and go on below. -/
theorem visit_recursive (h : pattern.isRecursive = true) (name : String) :
    w.sees (Glob.visit directoriesOnly (bound + 1) (pattern :: patterns) s name) =
      w.seesAt directoriesOnly bound s (Glob.dropRecursive patterns) name ++
        if s.isDir = true then w.finds directoriesOnly bound ([.directories] :: Glob.dropRecursive patterns) s else [] := by
  rw [sees_visit, Glob.further, List.head?_cons, Option.map_some, Option.getD_some, h, if_pos rfl, Bool.true_and,
    Glob.dropRecursive, List.dropWhile_cons_of_pos h]
  rfl

end

/-! ## What a spot says of its path -/

section

variable {w : World}

/-- A spot is right about its path, if anything is there: nothing is, where the path of an entry is too long. -/
def World.Known (w : World) (s : Glob.Spot) : Prop :=
  ∀ t, w.files.find w.current s.path = .ok t → s.isDir = t.isDir

theorem World.Known.isDir {s : Glob.Spot} (h : w.Known s) {es : List (String × FileTree)}
    (hes : w.files.find w.current s.path = .ok (.dir es)) : s.isDir = true := h _ hes

theorem World.Known.isFile {s : Glob.Spot} (h : w.Known s) {bytes : ByteArray}
    (hfile : w.files.find w.current s.path = .ok (.file bytes)) : s.isDir = false := h _ hfile

/-- Where something is, a spot that is right says what the system says. -/
theorem World.Known.eq_spot {s : Glob.Spot} (h : w.Known s) {t : FileTree} (ht : w.files.find w.current s.path = .ok t) :
    s = w.spot s.path := by
  have hkind : s.isDir = (w.spot s.path).isDir := by
    rw [h t ht, World.spot, Bool.eq_iff_iff, sees_isDir]
    cases t with
    | dir es => exact iff_of_true rfl ⟨es, ht⟩
    | file _ =>
      refine iff_of_false Bool.false_ne_true ?_
      rintro ⟨es, hes⟩
      cases ht.symm.trans hes
  obtain ⟨path, isDir⟩ := s
  exact congrArg (Glob.Spot.mk path) hkind

theorem known_spot (p : Path) : w.Known (w.spot p) := by
  intro t ht
  rw [Bool.eq_iff_iff, World.spot, sees_isDir]
  constructor
  · rintro ⟨es, hes⟩
    cases ht.symm.trans hes
    rfl
  · intro hdir
    cases t with
    | dir es => exact ⟨es, ht⟩
    | file _ => cases hdir

/-- A directory is right about its entries. -/
theorem known_entry {p : Path} {es : List (String × FileTree)} (hes : w.files.find w.current p = .ok (.dir es))
    {name : String} (hn : Named name) : w.Known (Glob.Spot.entry p (name, hasDir es name)) := by
  intro t ht
  obtain ⟨-, place, hplace, hget⟩ := find_eq_ok.mp hes
  obtain ⟨-, r, hr, hget'⟩ := find_eq_ok.mp ht
  rw [Glob.Spot.entry, leads_entryPath _ _ _ hn.slash] at hr
  obtain ⟨place', hplace', hr⟩ := Json.bind_eq_ok.mp hr
  cases hplace.symm.trans hplace'
  obtain ⟨es', hes', -, rfl⟩ := (follow_of_named hn).mp hr
  rw [get?_concat hget] at hget'
  rw [Glob.Spot.entry, hasDir, hget']
  rfl

end

/-! ## What patterns stand for -/

namespace Files

/-- A pattern without wildcards is not for directories at any depth. -/
theorem Pattern.literal?_of_isRecursive {pattern : Pattern} (h : pattern.isRecursive = true) : pattern.literal? = none := by
  cases hname : pattern.literal? with
  | none => rfl
  | some name =>
    rw [eq_of_literal? hname, isRecursive, List.contains_iff_mem, List.mem_map] at h
    obtain ⟨_, _, h⟩ := h
    cases h

/-- What comes behind two stars is not two stars again. -/
theorem Glob.isRecursive_of_dropRecursive {patterns : List Pattern} {next : Pattern}
    (h : (Glob.dropRecursive patterns).head? = some next) : next.isRecursive = false := by
  have hhead := List.head?_dropWhile_not Pattern.isRecursive patterns
  rw [← Glob.dropRecursive, h] at hhead
  simpa using hhead

/-- A pattern for one piece of a path: it is not for a slash, and two stars stand alone. -/
structure Pattern.IsPiece (pattern : Pattern) : Prop where
  plain : pattern.Plain
  alone : pattern.isRecursive = true → pattern = [.directories]

end Files

/-- The steps to a file that patterns stand for. Two stars behind all other pieces stand for directories alone. -/
inductive Stands : List Pattern → List Glob.Step → Prop
  | nil : Stands [] []
  | literal {pattern : Pattern} {patterns : List Pattern} {name : List Char} {steps : List Glob.Step}
    (hname : pattern.literal? = some name) (h : Stands patterns steps) :
    Stands (pattern :: patterns) (.entry (String.ofList name) :: steps)
  /-- dots that a pattern with wildcards stands for, if it starts with a dot -/
  | dots {pattern : Pattern} {patterns : List Pattern} {s : String} {steps : List Glob.Step}
    (hname : pattern.literal? = none) (hs : s ∈ Glob.specials pattern) (h : Stands patterns steps) :
    Stands (pattern :: patterns) (.dots s :: steps)
  | entry {pattern : Pattern} {patterns : List Pattern} {name : String} {steps : List Glob.Step}
    (hname : pattern.literal? = none) (hrec : pattern.isRecursive = false) (hn : Named name)
    (hmatch : pattern.isMatch name.toList = true) (h : Stands patterns steps) :
    Stands (pattern :: patterns) (.entry name :: steps)
  /-- a directory that two stars pass -/
  | deeper {pattern : Pattern} {patterns : List Pattern} {name : String} {steps : List Glob.Step}
    (hrec : pattern.isRecursive = true) (hn : Named name) (h : Stands (pattern :: patterns) steps) :
    Stands (pattern :: patterns) (.entry name :: steps)
  /-- what comes behind two stars -/
  | here {pattern next : Pattern} {patterns : List Pattern} {name : String} {steps : List Glob.Step}
    (hrec : pattern.isRecursive = true) (hnext : next.isRecursive = false) (hn : Named name)
    (hmatch : next.isMatch name.toList = true) (h : Stands patterns steps) :
    Stands (pattern :: next :: patterns) (.entry name :: steps)
  | again {pattern next : Pattern} {patterns : List Pattern} {steps : List Glob.Step} (hrec : pattern.isRecursive = true)
    (hnext : next.isRecursive = true) (h : Stands (next :: patterns) steps) : Stands (pattern :: next :: patterns) steps

namespace Stands

theorem ofDirectories {pattern : Pattern} (hrec : pattern.isRecursive = true) {patterns : List Pattern}
    {steps : List Glob.Step} (h : Stands ([.directories] :: patterns) steps) : Stands (pattern :: patterns) steps := by
  generalize hall : [PatternToken.directories] :: patterns = all at h
  induction h with
  | nil => cases hall
  | literal hname =>
    obtain ⟨rfl, rfl⟩ := List.cons.inj hall
    cases hname
  | dots _ hs =>
    obtain ⟨rfl, rfl⟩ := List.cons.inj hall
    cases hs
  | entry _ hrec' =>
    obtain ⟨rfl, rfl⟩ := List.cons.inj hall
    cases hrec'
  | deeper _ hn _ ih => exact .deeper hrec hn (ih hall)
  | here _ hnext hn hmatch h =>
    obtain ⟨-, rfl⟩ := List.cons.inj hall
    exact .here hrec hnext hn hmatch h
  | again _ hnext h =>
    obtain ⟨-, rfl⟩ := List.cons.inj hall
    exact .again hrec hnext h

/-- Two stars several times are as good as once. -/
theorem ofDropRecursive {pattern : Pattern} (hrec : pattern.isRecursive = true) {patterns : List Pattern}
    {steps : List Glob.Step} (h : Stands ([.directories] :: Glob.dropRecursive patterns) steps) :
    Stands (pattern :: patterns) steps := by
  induction patterns generalizing pattern with
  | nil => exact h.ofDirectories hrec
  | cons next patterns ih =>
    cases hnext : next.isRecursive with
    | false =>
      rw [Glob.dropRecursive, List.dropWhile_cons_of_neg (by simp [hnext])] at h
      exact h.ofDirectories hrec
    | true =>
      rw [Glob.dropRecursive, List.dropWhile_cons_of_pos hnext] at h
      exact .again hrec hnext (ih hnext h)

end Stands

/-! ## Nothing else is found -/

section

variable {w : World} (hnamed : w.files.wellNamed = true) {directoriesOnly : Bool}

/-- What is found behind an entry is behind a step to the entry. -/
theorem stands_of_visit {bound : Nat} {pattern : Pattern} {patterns : List Pattern} {p q : Path} {name : String} {kind : Bool}
    (hname : pattern.literal? = none) (hn : Named name) (hknown : w.Known (Glob.Spot.entry p (name, kind)))
    {bytes : ByteArray} (hfile : w.files.find w.current q = .ok (.file bytes))
    (ih : ∀ {left : List Pattern}, .ok q ∈ w.finds directoriesOnly bound left (Glob.Spot.entry p (name, kind)) →
      directoriesOnly = false ∧ ∃ steps, Stands left steps ∧ q = Glob.spell (Glob.entryPath p name) steps)
    (h : .ok q ∈ w.sees (Glob.visit directoriesOnly (bound + 1) (pattern :: patterns) (Glob.Spot.entry p (name, kind)) name)) :
    directoriesOnly = false ∧ ∃ steps, Stands (pattern :: patterns) steps ∧ q = Glob.spell p steps := by
  cases hrec : pattern.isRecursive with
  | false =>
    rw [visit_matched w _ _ _ _ _ hrec] at h
    split at h
    · next hmatch =>
      obtain ⟨hd, steps, hsteps, rfl⟩ := ih h
      exact ⟨hd, .entry name :: steps, .entry hname hrec hn hmatch hsteps, rfl⟩
    · cases h
  | true =>
    rw [visit_recursive w _ _ _ _ _ hrec, List.mem_append] at h
    rcases h with h | h
    · cases hdrop : Glob.dropRecursive patterns with
      | nil =>
        rw [hdrop, World.seesAt, Glob.arrived] at h
        split at h
        · cases h
        · next hdir =>
          obtain rfl := Except.ok.inj (List.mem_singleton.mp h)
          rw [hknown.isFile hfile] at hdir
          exact absurd rfl hdir
      | cons next rest =>
        rw [hdrop, World.seesAt] at h
        split at h
        · next hmatch =>
          have hnext := Glob.isRecursive_of_dropRecursive (hdrop ▸ List.head?_cons)
          obtain ⟨hd, steps, hsteps, rfl⟩ := ih h
          refine ⟨hd, .entry name :: steps, Stands.ofDropRecursive hrec ?_, rfl⟩
          rw [hdrop]
          exact .here rfl hnext hn hmatch hsteps
        · cases h
    · split at h
      · obtain ⟨hd, steps, hsteps, rfl⟩ := ih h
        exact ⟨hd, .entry name :: steps, .deeper hrec hn (hsteps.ofDropRecursive hrec), rfl⟩
      · cases h

include hnamed

/-- **A search spells only the files that its patterns stand for.** By induction on the bound, as the search goes. -/
theorem stands_of_finds {bound : Nat} {patterns : List Pattern} {s : Glob.Spot} (hknown : w.Known s) {q : Path}
    (h : .ok q ∈ w.finds directoriesOnly bound patterns s) {bytes : ByteArray}
    (hfile : w.files.find w.current q = .ok (.file bytes)) :
    directoriesOnly = false ∧ ∃ steps, Stands patterns steps ∧ q = Glob.spell s.path steps := by
  induction bound using Nat.strongRecOn generalizing patterns s with | ind bound ih => ?_
  rcases patterns with _ | ⟨pattern, patterns⟩
  · rw [finds_nil, Glob.arrived] at h
    split at h
    · cases h
    · next hkeep =>
      obtain rfl := Except.ok.inj (List.mem_singleton.mp h)
      rw [hknown.isFile hfile] at hkeep
      exact ⟨by simpa using hkeep, [], .nil, rfl⟩
  rcases bound with _ | bound
  · rw [finds_zero w _ (List.cons_ne_nil _ _)] at h
    cases h
  cases hname : pattern.literal? with
  | some name =>
    rw [finds_literal w _ _ _ _ _ hname] at h
    split at h
    · obtain ⟨hd, steps, hsteps, rfl⟩ := ih bound (Nat.lt_succ_self bound) (known_spot _) h
      exact ⟨hd, .entry (String.ofList name) :: steps, .literal hname hsteps, rfl⟩
    · cases h
  | none =>
    cases hdir : s.isDir with
    | false =>
      rw [finds_file w _ _ _ _ _ hname hdir] at h
      cases h
    | true =>
      cases hentries : w.files.entries w.current s.path with
      | error e =>
        rw [finds_unreadable w _ _ _ _ _ hname hdir hentries, List.mem_singleton] at h
        cases h
      | ok entries =>
        obtain ⟨es, hes⟩ := find_of_entries w hentries
        obtain ⟨-, hnames⟩ := names_of_find hnamed hes
        rw [finds_names w _ _ _ _ _ hname hdir hes, List.mem_append, List.mem_flatMap, List.mem_flatMap] at h
        rcases h with ⟨d, hd, h⟩ | ⟨name, hmem, h⟩
        · obtain ⟨hdirs, steps, hsteps, rfl⟩ := ih bound (Nat.lt_succ_self bound) (known_spot _) h
          exact ⟨hdirs, .dots d :: steps, .dots hname hd hsteps, rfl⟩
        rw [List.mem_mergeSort] at hmem
        have hknown' := known_entry hes (hnames name hmem)
        rcases bound with _ | bound
        · rw [Glob.visit] at h
          cases h
        · exact stands_of_visit hname (hnames name hmem) hknown' hfile (ih bound (by omega) hknown') h

end

/-! ## Everything is found -/

/-- The steps from a path can be taken one by one: there is something at each path on the way. -/
def World.Passes (w : World) (p : Path) (steps : List Glob.Step) : Prop :=
  ∀ before, before <+: steps → ∃ t, w.files.find w.current (Glob.spell p before) = .ok t

namespace World.Passes

variable {w : World} {p : Path} {s : Glob.Step} {steps : List Glob.Step}

theorem here (h : w.Passes p steps) : ∃ t, w.files.find w.current p = .ok t := h [] (List.nil_prefix ..)

theorem tail (h : w.Passes p (s :: steps)) : w.Passes (s.path p) steps := fun before hbefore =>
  h (s :: before) (List.cons_prefix_cons.mpr ⟨rfl, hbefore⟩)

/-- What a step is taken from is a directory. -/
theorem directory (h : w.Passes p (s :: steps)) (hs : '/' ∉ s.name.toList) :
    ∃ place entries r, leads w.files w.current p = .ok place ∧ w.files.get? place = some (.dir entries) ∧
      w.files.find w.current p = .ok (.dir entries) ∧ follow w.files place s.name = .ok r := by
  obtain ⟨t, ht⟩ := h.here
  obtain ⟨t', ht'⟩ := h.tail.here
  obtain ⟨-, r, hr, -⟩ := find_eq_ok.mp ht'
  rw [Glob.leads_step p hs] at hr
  obtain ⟨place, hplace, hr⟩ := Json.bind_eq_ok.mp hr
  obtain ⟨entries, hentries, -⟩ := follow_eq_ok.mp hr
  obtain ⟨hcheck, place', hplace', hget⟩ := find_eq_ok.mp ht
  cases hplace.symm.trans hplace'
  exact ⟨place, entries, r, hplace, hentries, find_eq_ok.mpr ⟨hcheck, place, hplace, hentries⟩, hr⟩

end World.Passes

section

variable {w : World} {directoriesOnly : Bool} {bound : Nat} {p : Path} {s : Glob.Spot}

/-- Only what is left behind two stars counts. -/
theorem finds_congr_recursive {patterns patterns' : List Pattern}
    (h : Glob.dropRecursive patterns = Glob.dropRecursive patterns') :
    w.finds directoriesOnly bound ([.directories] :: patterns) s =
      w.finds directoriesOnly bound ([.directories] :: patterns') s := by
  have hname : Pattern.literal? [.directories] = none := rfl
  rcases bound with _ | bound
  · rw [finds_zero w _ (List.cons_ne_nil _ _), finds_zero w _ (List.cons_ne_nil _ _)]
  cases hdir : s.isDir with
  | false => rw [finds_file w _ _ _ _ _ hname hdir, finds_file w _ _ _ _ _ hname hdir]
  | true =>
    cases hentries : w.files.entries w.current s.path with
    | error e =>
      rw [finds_unreadable w _ _ _ _ _ hname hdir hentries, finds_unreadable w _ _ _ _ _ hname hdir hentries]
    | ok entries =>
      rw [finds_entries w _ _ _ _ _ hname hdir hentries, finds_entries w _ _ _ _ _ hname hdir hentries]
      congr 1
      refine congrArg (List.flatMap · _) (funext fun e => ?_)
      rcases bound with _ | bound
      · rw [Glob.visit, Glob.visit]
      · rw [visit_recursive w _ _ _ _ _ rfl, visit_recursive w _ _ _ _ _ rfl, h]

theorem finds_dropRecursive (patterns : List Pattern) :
    w.finds directoriesOnly bound ([.directories] :: Glob.dropRecursive patterns) s =
      w.finds directoriesOnly bound ([.directories] :: patterns) s :=
  finds_congr_recursive (List.dropWhile_idempotent _ _)

/-- A name that is taken as a step is a name of an entry. -/
theorem World.Passes.entry {name : String} {steps : List Glob.Step} (h : w.Passes p (.entry name :: steps))
    (hn : Named name) : ∃ entries, w.files.find w.current p = .ok (.dir entries) ∧ name ∈ entries.map (·.1) := by
  obtain ⟨place, entries, r, -, hentries, hdir, hr⟩ := h.directory hn.slash
  obtain ⟨entries', hentries', hmem, -⟩ := (follow_of_named hn).mp hr
  cases hentries.symm.trans hentries'
  exact ⟨entries, hdir, hmem⟩

/-- What is found at the entry that the first step is taken to is found. -/
theorem World.Passes.finds {pattern : Pattern} {patterns : List Pattern} (hname : pattern.literal? = none) {name : String}
    {steps : List Glob.Step} (hknown : w.Known s) (h : w.Passes s.path (.entry name :: steps)) (hn : Named name)
    {found : Except GlobError Path}
    (hvisit : ∀ s' : Glob.Spot, s'.path = Glob.entryPath s.path name → w.Known s' →
      found ∈ w.sees (Glob.visit directoriesOnly bound (pattern :: patterns) s' name)) :
    found ∈ w.finds directoriesOnly (bound + 1) (pattern :: patterns) s := by
  obtain ⟨entries, hdir, hmem⟩ := h.entry hn
  rw [finds_names w _ _ _ _ _ hname (hknown.isDir hdir) hdir]
  have hfound := hvisit (Glob.Spot.entry s.path (name, hasDir entries name)) rfl (known_entry hdir hn)
  exact List.mem_append_right _ (List.mem_flatMap.mpr ⟨name, List.mem_mergeSort.mpr hmem, hfound⟩)

theorem mem_specials {pattern : Pattern} {s : String} (h : s ∈ Glob.specials pattern) : s = ".." ∨ s = "." := by
  rw [Glob.specials, List.mem_filter] at h
  split at h
  · simpa using h.1
  · cases h.1

theorem Stands.ne_nil {patterns : List Pattern} (hne : patterns ≠ []) {steps : List Glob.Step} (h : Stands patterns steps) :
    steps ≠ [] := by
  induction h with
  | nil => exact absurd rfl hne
  | again _ _ _ ih => exact ih (List.cons_ne_nil _ _)
  | _ => exact List.cons_ne_nil _ _

/-- No step goes down more than one directory. -/
theorem Stands.not_mem_slash {patterns : List Pattern} {steps : List Glob.Step} (h : Stands patterns steps)
    (hpieces : ∀ pattern ∈ patterns, pattern.IsPiece) : ∀ s ∈ steps, '/' ∉ s.name.toList := by
  induction h with
  | nil => exact List.forall_mem_nil _
  | literal hname _ ih =>
    rw [List.forall_mem_cons] at hpieces
    exact List.forall_mem_cons.mpr ⟨hpieces.1.plain.not_mem_literal hname, ih hpieces.2⟩
  | dots _ hs _ ih =>
    rw [List.forall_mem_cons] at hpieces
    refine List.forall_mem_cons.mpr ⟨?_, ih hpieces.2⟩
    rcases mem_specials hs with rfl | rfl <;> decide
  | entry _ _ hn _ _ ih =>
    rw [List.forall_mem_cons] at hpieces
    exact List.forall_mem_cons.mpr ⟨hn.slash, ih hpieces.2⟩
  | deeper _ hn _ ih => exact List.forall_mem_cons.mpr ⟨hn.slash, ih hpieces⟩
  | here _ _ hn _ _ ih =>
    rw [List.forall_mem_cons, List.forall_mem_cons] at hpieces
    exact List.forall_mem_cons.mpr ⟨hn.slash, ih hpieces.2.2⟩
  | again _ _ _ ih =>
    rw [List.forall_mem_cons] at hpieces
    exact ih hpieces.2

/-- **A search finds every path that its patterns stand for**, where the steps can be taken one by one. -/
theorem finds_of_stands {patterns : List Pattern} {steps : List Glob.Step} (h : Stands patterns steps)
    (hpieces : ∀ pattern ∈ patterns, pattern.IsPiece) (hbound : 2 * steps.length ≤ bound) (hknown : w.Known s)
    (hp : w.Passes s.path steps) : .ok (Glob.spell s.path steps) ∈ w.finds false bound patterns s := by
  induction h generalizing bound s with
  | nil =>
    rw [finds_nil]
    exact List.mem_singleton_self _
  | @literal pattern patterns name steps hname h ih =>
    rw [List.forall_mem_cons] at hpieces
    rw [List.length_cons] at hbound
    obtain ⟨bound, rfl⟩ : ∃ b, bound = b + 1 := ⟨bound - 1, by omega⟩
    obtain ⟨place, entries, r, -, -, hdir, -⟩ := hp.directory (hpieces.1.plain.not_mem_literal hname)
    have hexists := (sees_pathExists w).mpr hp.tail.here
    rw [finds_literal w _ _ _ _ _ hname, if_pos]
    · exact ih hpieces.2 (by omega) (known_spot _) hp.tail
    · rw [Glob.Step.path] at hexists
      rw [hknown.isDir hdir, hexists]
      cases Glob.isSpecial (String.ofList name) <;> rfl
  | @dots pattern patterns d steps hname hd h ih =>
    rw [List.forall_mem_cons] at hpieces
    rw [List.length_cons] at hbound
    obtain ⟨bound, rfl⟩ : ∃ b, bound = b + 1 := ⟨bound - 1, by omega⟩
    have hslash : '/' ∉ d.toList := by rcases mem_specials hd with rfl | rfl <;> decide
    obtain ⟨place, entries, r, -, -, hdir, -⟩ := hp.directory hslash
    rw [finds_names w _ _ _ _ _ hname (hknown.isDir hdir) hdir]
    exact List.mem_append_left _ (List.mem_flatMap.mpr ⟨d, hd, ih hpieces.2 (by omega) (known_spot _) hp.tail⟩)
  | @entry pattern patterns name steps hname hrec hn hmatch h ih =>
    rw [List.forall_mem_cons] at hpieces
    rw [List.length_cons] at hbound
    obtain ⟨bound, rfl⟩ : ∃ b, bound = b + 1 + 1 := ⟨bound - 2, by omega⟩
    refine hp.finds hname hknown hn fun s' hpath hknown' => ?_
    have htail : w.Passes s'.path steps := hpath ▸ hp.tail
    rw [visit_matched w _ _ _ _ _ hrec, if_pos hmatch, Glob.spell_cons, Glob.Step.path, ← hpath]
    exact ih hpieces.2 (by omega) hknown' htail
  | @deeper pattern patterns name steps hrec hn h ih =>
    obtain rfl := (hpieces pattern List.mem_cons_self).alone hrec
    rw [List.length_cons] at hbound
    obtain ⟨bound, rfl⟩ : ∃ b, bound = b + 1 + 1 := ⟨bound - 2, by omega⟩
    refine hp.finds (Pattern.literal?_of_isRecursive hrec) hknown hn fun s' hpath hknown' => ?_
    have htail : w.Passes s'.path steps := hpath ▸ hp.tail
    have hbelow : s'.isDir = true := by
      have hslash := h.not_mem_slash hpieces
      obtain ⟨first, steps, rfl⟩ := List.exists_cons_of_ne_nil (h.ne_nil (List.cons_ne_nil _ _))
      obtain ⟨place, entries, r, -, -, hdir, -⟩ := htail.directory (hslash first List.mem_cons_self)
      exact hknown'.isDir hdir
    rw [visit_recursive w _ _ _ _ _ hrec, if_pos hbelow, finds_dropRecursive, Glob.spell_cons, Glob.Step.path, ← hpath]
    exact List.mem_append_right _ (ih hpieces (by omega) hknown' htail)
  | @here pattern next patterns name steps hrec hnext hn hmatch h ih =>
    obtain rfl := (hpieces pattern List.mem_cons_self).alone hrec
    rw [List.length_cons] at hbound
    obtain ⟨bound, rfl⟩ : ∃ b, bound = b + 1 + 1 := ⟨bound - 2, by omega⟩
    refine hp.finds (Pattern.literal?_of_isRecursive hrec) hknown hn fun s' hpath hknown' => ?_
    have htail : w.Passes s'.path steps := hpath ▸ hp.tail
    have hrest : ∀ q ∈ patterns, q.IsPiece := fun q hq =>
      hpieces q (List.mem_cons_of_mem _ (List.mem_cons_of_mem _ hq))
    rw [visit_recursive w _ _ _ _ _ hrec, Glob.dropRecursive, List.dropWhile_cons_of_neg (by simp [hnext]), World.seesAt,
      if_pos hmatch, Glob.spell_cons, Glob.Step.path, ← hpath]
    exact List.mem_append_left _ (ih hrest (by omega) hknown' htail)
  | @again pattern next patterns steps hrec hnext h ih =>
    rw [List.forall_mem_cons] at hpieces
    obtain rfl := hpieces.1.alone hrec
    obtain rfl := (hpieces.2 next List.mem_cons_self).alone hnext
    have hdrop : Glob.dropRecursive ([.directories] :: patterns) = Glob.dropRecursive patterns :=
      List.dropWhile_cons_of_pos hnext
    rw [finds_congr_recursive hdrop]
    exact ih hpieces.2 hbound hknown hp

end

/-! ## How many steps there are -/

/-- The bytes that a path has left before it is too long. The current directory leaves none of its text to what is below. -/
def room (p : Path) : Nat := if p.isCurrent then longestPath else longestPath - p.utf8ByteSize

theorem utf8ByteSize_join (p : Path) {name : String} (hname : '/' ∉ name.toList) :
    p.utf8ByteSize + name.utf8ByteSize ≤ (Path.join p name).utf8ByteSize := by
  rw [Path.join, isAbsolute_of_not_mem hname, if_neg Bool.false_ne_true]
  split
  · rw [String.utf8ByteSize_append]
  · rw [String.utf8ByteSize_append, String.utf8ByteSize_append]
    omega

theorem checkPath_eq_ok {p : Path} :
    checkPath p = .ok () ↔ '\x00' ∉ p.toList ∧ p ≠ "" ∧ p.utf8ByteSize < longestPath := by
  rw [checkPath, List.contains_eq_mem]
  split_ifs with hnul hempty hlong
  · simpa using fun h => absurd (of_decide_eq_true hnul) h
  · simp [String.isEmpty_iff.mp hempty]
  · simp [Nat.not_lt.mpr hlong]
  · rw [String.isEmpty_iff] at hempty
    exact iff_of_true rfl ⟨fun h => hnul (decide_eq_true h), hempty, Nat.not_le.mp hlong⟩

section

variable {p : Path} (hp : p ≠ "")

include hp

theorem room_join {name : String} (hname : '/' ∉ name.toList) : room (Path.join p name) ≤ room p := by
  have hsize := utf8ByteSize_join p hname
  rw [room, room, Path.isCurrent_join hp hname]
  cases p.isCurrent with
  | true =>
    rw [if_pos rfl]
    split <;> omega
  | false =>
    rw [Bool.false_and, if_neg Bool.false_ne_true, if_neg Bool.false_ne_true]
    omega

theorem room_step {s : Glob.Step} (hs : '/' ∉ s.name.toList) : room (s.path p) ≤ room p := by
  cases s with
  | dots name => exact room_join hp hs
  | entry name =>
    rw [Glob.Step.path, Glob.entryPath]
    split
    · next hc =>
      rw [room, room, if_pos hc]
      split <;> omega
    · exact room_join hp hs

/-- A name takes some of the room that there is. -/
theorem room_entry {name : String} (hn : Named name) (hlen : p.utf8ByteSize < longestPath) :
    room (Glob.entryPath p name) < room p := by
  have hpos : 0 < name.utf8ByteSize :=
    Nat.pos_of_ne_zero fun h => hn.ne_empty (String.utf8ByteSize_eq_zero_iff.mp h)
  rw [Glob.entryPath]
  split
  · next hc =>
    rw [room, room, if_pos hc, Path.isCurrent_name hn, if_neg Bool.false_ne_true]
    exact Nat.sub_lt (by decide) hpos
  · next hc =>
    have hsize := utf8ByteSize_join p hn.slash
    rw [room, room, Path.isCurrent_join hp hn.slash, if_neg hc, Bool.eq_false_iff.mpr hc, Bool.false_and,
      if_neg Bool.false_ne_true]
    omega

end

/-- **No more steps are taken than there are pieces of the pattern and bytes in a path.** -/
theorem Stands.length_le {w : World} {patterns : List Pattern} {steps : List Glob.Step} (h : Stands patterns steps)
    (hpieces : ∀ pattern ∈ patterns, pattern.IsPiece) {p : Path} (hp : w.Passes p steps) :
    steps.length ≤ room p + patterns.length := by
  have hslash := h.not_mem_slash hpieces
  have hpath {p : Path} {steps : List Glob.Step} (hp : w.Passes p steps) : p ≠ "" ∧ p.utf8ByteSize < longestPath := by
    obtain ⟨t, ht⟩ := hp.here
    exact (checkPath_eq_ok.mp (find_eq_ok.mp ht).1).2
  induction h generalizing p with
  | nil => exact Nat.zero_le _
  | again _ _ _ ih =>
    have hle := ih (List.forall_mem_cons.mp hpieces).2 hp hslash
    simp only [List.length_cons] at hle ⊢
    omega
  | deeper _ hn _ ih =>
    rw [List.forall_mem_cons] at hslash
    have hle := ih hpieces hp.tail hslash.2
    have hroom := room_entry (hpath hp).1 hn (hpath hp).2
    simp only [List.length_cons, Glob.Step.path] at hle ⊢
    omega
  | here _ _ _ _ _ ih =>
    rw [List.forall_mem_cons] at hslash
    rw [List.forall_mem_cons, List.forall_mem_cons] at hpieces
    have hle := ih hpieces.2.2 hp.tail hslash.2
    have hroom := room_step (hpath hp).1 hslash.1
    simp only [List.length_cons] at hle ⊢
    omega
  | literal _ _ ih | dots _ _ _ ih | entry _ _ _ _ _ ih =>
    rw [List.forall_mem_cons] at hslash hpieces
    have hle := ih hpieces.2 hp.tail hslash.2
    have hroom := room_step (hpath hp).1 hslash.1
    simp only [List.length_cons] at hle ⊢
    omega

end SchemaWeave
