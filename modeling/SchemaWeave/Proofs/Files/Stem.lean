import SchemaWeave.Proofs.Files.Below
import SchemaWeave.Proofs.Files.Escape

/-!
# The directory that a pattern starts below

The search for the pattern below a directory follows the directory's path first, name by name, whatever characters are in
it (`finds_baseSteps`). From there it spells paths behind the path of the directory, which it spells without empty pieces:
its stem (`Files.Glob.spell_baseSteps`).
-/

namespace SchemaWeave

open Files FileTree

namespace Files.Glob

/-! ## The path of a directory -/

/-- The steps from the root to a directory. -/
def baseSteps (base : Path) : List Step := (basePieces base).map fun piece => .entry (String.ofList piece)

/-- The path at which a search comes to a directory. -/
abbrev arrival (base : Path) : Path := spell "/" (baseSteps base)

/-- The path of a directory without empty pieces, and without a slash at the end. -/
def stem (base : Path) : Path := String.ofList (((basePieces base).filter (· ≠ [])).flatMap ('/' :: ·))

theorem flatMap_splitSlashes (text : List Char) : (splitSlashes text).flatMap ('/' :: ·) = '/' :: text := by
  induction text with
  | nil => rfl
  | cons c text ih =>
    rw [splitSlashes]
    split
    · next hc => rw [List.flatMap_cons, ih, hc, List.singleton_append]
    · cases hs : splitSlashes text with
      | nil => exact absurd hs (splitSlashes_ne_nil text)
      | cons piece pieces =>
        rw [hs, List.flatMap_cons, List.cons_append] at ih
        rw [List.flatMap_cons, List.cons_append, List.cons_append, (List.cons.inj ih).2]

section

variable {base : Path} (hbase : base.isAbsolute = true)

theorem basePieces_slash {piece : List Char} (h : piece ∈ basePieces base) : '/' ∉ piece := not_mem_of_mem_patternPieces h

theorem baseSteps_slash : ∀ s ∈ baseSteps base, '/' ∉ s.name.toList := by
  rw [baseSteps, List.forall_mem_map]
  intro piece hpiece
  rw [Step.name, String.toList_ofList]
  exact basePieces_slash hpiece

include hbase

/-- A path has the pieces to follow, and an empty one behind them if it ends with a slash. -/
theorem splitSlashes_base : ∃ cs blanks, base.toList = '/' :: cs ∧ splitSlashes cs = basePieces base ++ blanks ∧
    ∀ piece ∈ blanks, piece = [] := by
  obtain ⟨cs, hcs⟩ : ∃ cs, base.toList = '/' :: cs := List.head?_eq_some_iff.mp (by simpa [Path.isAbsolute] using hbase)
  rw [basePieces, hcs, List.drop_one, List.tail_cons]
  rcases patternPieces_eq cs with rfl | ⟨front, ⟨rfl, -, -⟩ | rfl, hpieces⟩
  · exact ⟨[], [[]], rfl, rfl, by simp⟩
  · exact ⟨cs, [], rfl, by rw [hpieces, List.append_nil], List.forall_mem_nil _⟩
  · exact ⟨_, [[]], rfl, by rw [hpieces, splitSlashes_append]; rfl, by simp⟩

/-- A path without empty pieces is its own stem. -/
theorem stem_eq (h : [] ∉ splitSlashes (base.toList.drop 1)) : stem base = base := by
  obtain ⟨cs, blanks, hcs, hsplit, hblanks⟩ := splitSlashes_base hbase
  rw [hcs, List.drop_one, List.tail_cons, hsplit, List.mem_append, not_or] at h
  have hnone : blanks = [] := List.eq_nil_iff_forall_not_mem.mpr fun piece hpiece =>
    h.2 (hblanks piece hpiece ▸ hpiece)
  have hall : (basePieces base).filter (· ≠ []) = basePieces base :=
    List.filter_eq_self.mpr fun piece hpiece => decide_eq_true fun hnil => h.1 (hnil ▸ hpiece)
  rw [hnone, List.append_nil] at hsplit
  rw [stem, hall, ← hsplit, flatMap_splitSlashes, ← hcs, String.ofList_toList]

end

/-! ## Paths behind a stem -/

/-- A path behind a stem is spelled on behind it. -/
theorem spell_append {front p : Path} (hfront : front = "" ∨ front.isAbsolute = true) (hp : p.isAbsolute = true)
    {steps : List Step} (hs : ∀ s ∈ steps, '/' ∉ s.name.toList) : spell (front ++ p) steps = front ++ spell p steps := by
  induction steps generalizing p with
  | nil => rfl
  | cons s steps ih =>
    rw [List.forall_mem_cons] at hs
    have hne : p.toList ≠ [] := by
      intro hnil
      rw [Path.isAbsolute, hnil] at hp
      cases hp
    have habsolute : (front ++ p).isAbsolute = true := by
      rcases hfront with rfl | hfront
      · rwa [String.empty_append]
      · exact isAbsolute_append hfront p
    have hjoin : Path.join (front ++ p) s.name = front ++ Path.join p s.name := by
      have hlast : (front ++ p).toList.getLast? = p.toList.getLast? := by
        rw [String.toList_append, List.getLast?_append_of_ne_nil _ hne]
      have hempty : (front ++ p).isEmpty = p.isEmpty := by
        rw [Bool.eq_iff_iff, String.isEmpty_iff, String.isEmpty_iff, ← String.toList_eq_nil_iff, ← String.toList_eq_nil_iff,
          String.toList_append]
        simp [hne]
      rw [Path.join, Path.join, isAbsolute_of_not_mem hs.1, if_neg Bool.false_ne_true, if_neg Bool.false_ne_true, hlast,
        hempty]
      split
      · exact String.append_assoc ..
      · rw [String.append_assoc, String.append_assoc, String.append_assoc]
    rw [spell_cons, spell_cons, path_of_isAbsolute habsolute, path_of_isAbsolute hp, hjoin,
      ih (isAbsolute_join hp hs.1) hs.2]

/-- A path that goes on behind a text with a slash: it ends with this slash, or the slash is still to come. -/
structure GoesOn (front p : Path) : Prop where
  absolute : front = "" ∨ front.isAbsolute = true
  slash : p = front ++ "/" ∨ p = front ∧ front ≠ "" ∧ front.toList.getLast? ≠ some '/'

namespace GoesOn

variable {front p : Path} (h : GoesOn front p)

include h

theorem isAbsolute : p.isAbsolute = true := by
  rcases h.absolute with rfl | habsolute
  · rcases h.slash with rfl | ⟨-, hne, -⟩
    · rfl
    · exact absurd rfl hne
  · rcases h.slash with rfl | ⟨rfl, -⟩
    · exact isAbsolute_append habsolute "/"
    · exact habsolute

variable {name : String} (hname : '/' ∉ name.toList)

include hname

theorem join : Path.join p name = front ++ "/" ++ name := by
  rw [Path.join, isAbsolute_of_not_mem hname, if_neg Bool.false_ne_true]
  rcases h.slash with rfl | ⟨rfl, hne, hlast⟩
  · rw [if_pos (by simp)]
  · rw [if_neg (by simpa [hne] using hlast)]

/-- It goes on behind an entry, too, and stays behind the same text at an empty name. -/
theorem next : GoesOn (if name = "" then front else front ++ "/" ++ name) (Path.join p name) := by
  rw [h.join hname]
  split
  · next hempty =>
    rw [hempty, String.append_empty]
    exact ⟨h.absolute, Or.inl rfl⟩
  · next hne =>
    have hnonempty : name.toList ≠ [] := by simpa using hne
    refine ⟨Or.inr (isAbsolute_append ?_ name), Or.inr ⟨rfl, by simp, ?_⟩⟩
    · rcases h.absolute with rfl | habsolute
      · rfl
      · exact isAbsolute_append habsolute "/"
    · rw [String.toList_append, List.getLast?_append_of_ne_nil _ hnonempty]
      exact fun hlast => hname (List.mem_of_getLast? hlast)

omit hname in
/-- What is spelled from there on is the text and what is spelled from the root on. -/
theorem spell {steps : List Step} (hs : ∀ s ∈ steps, '/' ∉ s.name.toList) (hne : steps ≠ []) :
    Glob.spell p steps = front ++ Glob.spell "/" steps := by
  obtain ⟨s, steps, rfl⟩ := List.exists_cons_of_ne_nil hne
  rw [List.forall_mem_cons] at hs
  have hroot : GoesOn "" "/" := ⟨Or.inl rfl, Or.inl rfl⟩
  have habsolute := isAbsolute_join hroot.isAbsolute hs.1
  rw [spell_cons, spell_cons, path_of_isAbsolute h.isAbsolute, path_of_isAbsolute hroot.isAbsolute, h.join hs.1,
    ← spell_append h.absolute habsolute hs.2, hroot.join hs.1, String.empty_append, String.append_assoc]

end GoesOn

/-- The names that lead to a directory spell its stem, and what comes behind them is spelled behind the stem. -/
theorem goesOn_spell {pieces : List (List Char)} (hpieces : ∀ piece ∈ pieces, '/' ∉ piece) {front p : Path}
    (h : GoesOn front p) : GoesOn (front ++ String.ofList ((pieces.filter (· ≠ [])).flatMap ('/' :: ·)))
      (spell p (pieces.map fun piece => .entry (String.ofList piece))) := by
  induction pieces generalizing front p with
  | nil => simpa using h
  | cons piece pieces ih =>
    rw [List.forall_mem_cons] at hpieces
    have hname : '/' ∉ (String.ofList piece).toList := by rw [String.toList_ofList]; exact hpieces.1
    have hnext := ih hpieces.2 (h.next hname)
    rw [List.map_cons, spell_cons, path_of_isAbsolute h.isAbsolute, Step.name]
    by_cases hempty : piece = []
    · subst hempty
      simpa using hnext
    · have hne : String.ofList piece ≠ "" := by
        rw [ne_eq, ← String.toList_eq_nil_iff, String.toList_ofList]
        exact hempty
      rw [if_neg hne] at hnext
      rw [List.filter_cons_of_pos (by simpa using hempty), List.flatMap_cons, List.cons_append, String.ofList_cons,
        String.ofList_append]
      simpa [String.append_assoc] using hnext

/-- **What is spelled below a directory comes behind its stem.** -/
theorem spell_baseSteps (base : Path) {steps : List Step} (hs : ∀ s ∈ steps, '/' ∉ s.name.toList) (hne : steps ≠ []) :
    spell (arrival base) steps = stem base ++ spell "/" steps := by
  have hroot : GoesOn "" "/" := ⟨Or.inl rfl, Or.inl rfl⟩
  have hpieces : ∀ piece ∈ basePieces base, '/' ∉ piece := fun _ => basePieces_slash
  have hstem := goesOn_spell hpieces hroot
  rw [String.empty_append] at hstem
  exact hstem.spell hs hne

/-! ## The way to a directory -/

/-- A spelled path is no longer than its steps with a slash in front of each. -/
theorem toList_spell_sublist {p : Path} (hp : p.isAbsolute = true) {steps : List Step}
    (hs : ∀ s ∈ steps, '/' ∉ s.name.toList) :
    (spell p steps).toList.Sublist (p.toList ++ steps.flatMap fun s => '/' :: s.name.toList) := by
  induction steps generalizing p with
  | nil => simp
  | cons s steps ih =>
    rw [List.forall_mem_cons] at hs
    rw [spell_cons, path_of_isAbsolute hp, List.flatMap_cons, ← List.append_assoc]
    refine (ih (isAbsolute_join hp hs.1) hs.2).trans (List.Sublist.append_right ?_ _)
    obtain ⟨text, htext, rfl | ⟨rfl, -⟩⟩ := Path.toList_join (p := p) hs.1
    · rw [htext]
    · rw [htext]
      exact (List.sublist_cons_self ..).append_left _

/-- No path on the way to a directory has more in it than the directory's own path. -/
theorem toList_way_sublist {base : Path} (hbase : base.isAbsolute = true) {before : List Step}
    (hbefore : before <+: baseSteps base) : (spell "/" before).toList.Sublist base.toList := by
  obtain ⟨cs, blanks, hcs, hsplit, -⟩ := splitSlashes_base hbase
  have hs : ∀ s ∈ before, '/' ∉ s.name.toList := fun s hs => baseSteps_slash s (hbefore.subset hs)
  have hroot : GoesOn "" "/" := ⟨Or.inl rfl, Or.inl rfl⟩
  have hall : ((baseSteps base).flatMap fun s => '/' :: s.name.toList).Sublist base.toList := by
    have hnames : ((baseSteps base).flatMap fun s => '/' :: s.name.toList) = (basePieces base).flatMap ('/' :: ·) := by
      rw [baseSteps, List.flatMap_map]
      simp [Step.name]
    rw [hnames, hcs, ← flatMap_splitSlashes, hsplit, List.flatMap_append]
    exact List.sublist_append_left ..
  cases before with
  | nil =>
    rw [hcs]
    exact (List.nil_sublist cs).cons_cons '/'
  | cons s before =>
    rw [List.forall_mem_cons] at hs
    rw [spell_cons, path_of_isAbsolute hroot.isAbsolute]
    refine (toList_spell_sublist (isAbsolute_join hroot.isAbsolute hs.1) hs.2).trans (List.Sublist.trans ?_ hall)
    obtain ⟨more, hmore⟩ := hbefore
    rw [← hmore, List.flatMap_append, List.flatMap_cons, hroot.join hs.1]
    simp

end Files.Glob

/-- A world with a tree at an absolute path. -/
structure World.Base (w : World) (base : Path) (place : Place) (tree : FileTree) : Prop where
  named : w.files.wellNamed = true
  absolute : base.isAbsolute = true
  located : w.files.locate w.current base = .ok place
  holds : w.files.get? place = some tree

theorem foldlM_follow_blank {root : FileTree} {names : List String} (hnames : ∀ n ∈ names, n = "") {place r : Place}
    (h : names.foldlM (follow root) place = .ok r) : r = place := by
  induction names generalizing place with
  | nil =>
    cases h
    rfl
  | cons name names ih =>
    rw [List.forall_mem_cons] at hnames
    rw [List.foldlM_cons] at h
    obtain ⟨next, hnext, h⟩ := Json.bind_eq_ok.mp h
    obtain ⟨entries, -, hnext⟩ := follow_eq_ok.mp hnext
    rw [if_pos (Or.inl hnames.1)] at hnext
    rw [ih hnames.2 h, hnext]

namespace World.Base

variable {w : World} {base : Path} {place : Place} {tree : FileTree} (h : w.Base base place tree)

include h

/-- The names of a directory's path lead to it from the root. -/
theorem follows : leads w.files w.current "/" = .ok [] ∧
    ((Glob.baseSteps base).map Glob.Step.name).foldlM (follow w.files) [] = .ok place := by
  obtain ⟨cs, blanks, hcs, hsplit, hblanks⟩ := Glob.splitSlashes_base h.absolute
  have hleads := (locate_eq_ok.mp h.located).2
  have hpieces : pieces base = "" :: ((Glob.baseSteps base).map Glob.Step.name ++ blanks.map String.ofList) := by
    rw [pieces, hcs, splitSlashes, if_pos rfl, hsplit, Glob.baseSteps, List.map_map, List.map_cons, List.map_append]
    rfl
  rw [leads, hpieces, startOf, h.absolute, if_pos rfl, List.foldlM_cons] at hleads
  obtain ⟨root, hroot, hleads⟩ := Json.bind_eq_ok.mp hleads
  obtain ⟨entries, hentries, hstay⟩ := follow_eq_ok.mp hroot
  rw [if_pos (Or.inl rfl)] at hstay
  subst hstay
  rw [List.foldlM_append] at hleads
  obtain ⟨last, hlast, hleads⟩ := Json.bind_eq_ok.mp hleads
  have hblank : ∀ n ∈ blanks.map String.ofList, n = "" := by
    rw [List.forall_mem_map]
    exact fun piece hpiece => by rw [hblanks piece hpiece, String.ofList_nil]
  obtain rfl := foldlM_follow_blank hblank hleads
  refine ⟨?_, hlast⟩
  have hslash : leads w.files w.current "/" = ["", ""].foldlM (follow w.files) [] := rfl
  rw [hslash, List.foldlM_cons, hroot]
  exact (congrArg (· >>= pure) hroot : _)

/-- What the names on the way spell leads where they lead, and is not too long. -/
theorem leads_way {before : List Glob.Step} (hbefore : before <+: Glob.baseSteps base) :
    ∃ r, leads w.files w.current (Glob.spell "/" before) = .ok r ∧
      (before.map Glob.Step.name).foldlM (follow w.files) [] = .ok r ∧ checkPath (Glob.spell "/" before) = .ok () := by
  obtain ⟨hroot, hall⟩ := h.follows
  have hs : ∀ s ∈ before, '/' ∉ s.name.toList := fun s hs => Glob.baseSteps_slash s (hbefore.subset hs)
  have hsublist := Glob.toList_way_sublist h.absolute hbefore
  obtain ⟨more, hmore⟩ := hbefore
  rw [← hmore, List.map_append, List.foldlM_append] at hall
  obtain ⟨r, hr, -⟩ := Json.bind_eq_ok.mp hall
  refine ⟨r, ?_, hr, ?_⟩
  · rw [Glob.leads_spell "/" hs, hroot]
    exact hr
  · obtain ⟨hplain, -, hshort⟩ := checkPath_eq_ok.mp (locate_eq_ok.mp h.located).1
    have hle : (Glob.spell "/" before).utf8ByteSize ≤ base.utf8ByteSize := by
      rw [← String.ofList_toList (s := Glob.spell "/" before), ← String.ofList_toList (s := base),
        String.utf8ByteSize_ofList, String.utf8ByteSize_ofList]
      exact String.utf8Len_le_of_sublist hsublist
    refine checkPath_eq_ok.mpr ⟨fun hnul => hplain (hsublist.subset hnul), ?_, hle.trans_lt hshort⟩
    exact ne_empty_of_isAbsolute (isAbsolute_spell rfl hs)

/-- The search can follow the names one by one. -/
theorem passes : w.Passes "/" (Glob.baseSteps base) := by
  intro before hbefore
  obtain ⟨r, hleads, -, hcheck⟩ := h.leads_way hbefore
  obtain ⟨t, ht⟩ := Option.isSome_iff_exists.mp (isSome_of_leads hleads)
  exact ⟨t, find_eq_ok.mpr ⟨hcheck, r, hleads, ht⟩⟩

/-- And it comes to the directory. -/
theorem below : w.Below place (Glob.arrival base) [] ∧
    (Glob.arrival base).utf8ByteSize < longestPath := by
  obtain ⟨r, hleads, hr, hcheck⟩ := h.leads_way (List.prefix_refl _)
  obtain ⟨hplain, -, hshort⟩ := checkPath_eq_ok.mp hcheck
  cases hr.symm.trans h.follows.2
  refine ⟨⟨?_, isAbsolute_spell rfl Glob.baseSteps_slash, hplain⟩, hshort⟩
  rw [List.append_nil]
  exact hleads

end World.Base

/-! ## The search for a directory -/

theorem flatMap_eq_of_nodup {α β : Type} {l : List α} {a : α} {f : α → List β} (hnodup : l.Nodup) (ha : a ∈ l)
    (hf : ∀ b ∈ l, b ≠ a → f b = []) : l.flatMap f = f a := by
  obtain ⟨front, back, rfl⟩ := List.append_of_mem ha
  have hne := List.nodup_middle.mp hnodup
  rw [List.nodup_cons, List.mem_append, not_or] at hne
  have hfront : front.flatMap f = [] := List.flatMap_eq_nil_iff.mpr fun b hb =>
    hf b (List.mem_append_left _ hb) fun heq => hne.1.1 (heq ▸ hb)
  have hback : back.flatMap f = [] := List.flatMap_eq_nil_iff.mpr fun b hb =>
    hf b (List.mem_append_right _ (List.mem_cons_of_mem _ hb)) fun heq => hne.1.2 (heq ▸ hb)
  rw [List.flatMap_append, List.flatMap_cons, hfront, hback, List.nil_append, List.append_nil]

section

variable {w : World} (hnamed : w.files.wellNamed = true) {directoriesOnly : Bool} {bound : Nat} {patterns : List Pattern}
  {p : Path}

include hnamed

/-- The pattern for a name finds what has the name, and nothing beside it. -/
theorem finds_exact {piece : List Char} (hslash : '/' ∉ piece) {steps : List Glob.Step}
    (h : w.Passes p (.entry (String.ofList piece) :: steps)) : ∃ bound', bound ≤ bound' ∧
      w.finds directoriesOnly (bound + 2) (Pattern.exact piece :: patterns) (w.spot p) =
        w.finds directoriesOnly bound' patterns (w.spot (Glob.entryPath p (String.ofList piece))) := by
  have hs : '/' ∉ (Glob.Step.entry (String.ofList piece)).name.toList := by rwa [Glob.Step.name, String.toList_ofList]
  obtain ⟨place, entries, r, -, hentries, hdir, hr⟩ := h.directory hs
  have hisDir : (w.spot p).isDir = true := (known_spot p).isDir hdir
  cases hwild : piece.any Pattern.isWild with
  | false =>
    have hexists := (sees_pathExists w).mpr h.tail.here
    rw [Glob.Step.path] at hexists
    refine ⟨bound + 1, Nat.le_succ _, ?_⟩
    rw [finds_literal w _ _ _ _ _ (Pattern.literal?_exact hwild), hisDir, World.spot, hexists, if_pos]
    cases Glob.isSpecial (String.ofList piece) <;> rfl
  | true =>
    -- the name has a wildcard in it, so it is no dots and leads to an entry
    have hne : ∀ {s : String}, s.toList.any Pattern.isWild = false → String.ofList piece ≠ s := by
      rintro s hs rfl
      rw [String.toList_ofList, hwild] at hs
      cases hs
    obtain ⟨entries', hentries', hentry⟩ := follow_eq_ok.mp hr
    rw [Glob.Step.name, if_neg (not_or.mpr ⟨hne rfl, hne rfl⟩), if_neg (hne rfl), isSome_lookup_iff] at hentry
    cases hentries.symm.trans hentries'
    obtain ⟨hnodup, hnames⟩ := names_of_find hnamed hdir
    have hrec := Pattern.isRecursive_exact piece
    obtain ⟨t, ht⟩ := h.tail.here
    have hspot := (known_entry hdir (hnames _ hentry.2.1)).eq_spot ht
    refine ⟨bound, Nat.le_refl _, ?_⟩
    rw [finds_names w _ _ _ _ _ (Pattern.literal?_exact_wild hwild) hisDir hdir, Pattern.specials_exact hwild,
      List.flatMap_nil, List.nil_append,
      flatMap_eq_of_nodup ((List.mergeSort_perm _ _).nodup_iff.mpr hnodup) (List.mem_mergeSort.mpr hentry.2.1)]
    · rw [visit_matched w _ _ _ _ _ hrec, if_pos (Pattern.isMatch_exact.mpr String.toList_ofList)]
      exact congrArg (w.finds directoriesOnly bound patterns) hspot
    · intro name _ hne
      rw [visit_matched w _ _ _ _ _ hrec, if_neg]
      intro hmatch
      exact hne (by rw [← Pattern.isMatch_exact.mp hmatch, String.ofList_toList])

/-- **The search for a pattern below a directory comes to the directory.** -/
theorem finds_baseSteps {pieces : List (List Char)} (hpieces : ∀ piece ∈ pieces, '/' ∉ piece)
    (h : w.Passes p (pieces.map fun piece => .entry (String.ofList piece))) : ∃ bound', bound ≤ bound' ∧
      w.finds directoriesOnly (bound + 2 * pieces.length) (pieces.map Pattern.exact ++ patterns) (w.spot p) =
        w.finds directoriesOnly bound' patterns
          (w.spot (Glob.spell p (pieces.map fun piece => .entry (String.ofList piece)))) := by
  induction pieces generalizing bound p with
  | nil => exact ⟨bound, Nat.le_refl _, rfl⟩
  | cons piece pieces ih =>
    rw [List.forall_mem_cons] at hpieces
    rw [List.map_cons] at h
    obtain ⟨more, hmore, hfirst⟩ : ∃ more, bound + 2 * pieces.length ≤ more ∧
        w.finds directoriesOnly (bound + 2 * pieces.length + 2)
            (Pattern.exact piece :: (pieces.map Pattern.exact ++ patterns)) (w.spot p) =
          w.finds directoriesOnly more (pieces.map Pattern.exact ++ patterns)
            (w.spot (Glob.entryPath p (String.ofList piece))) :=
      finds_exact hnamed hpieces.1 h
    obtain ⟨left, rfl⟩ : ∃ left, more = left + 2 * pieces.length := ⟨more - 2 * pieces.length, by omega⟩
    obtain ⟨bound', hbound', hrest⟩ : ∃ bound', left ≤ bound' ∧
        w.finds directoriesOnly (left + 2 * pieces.length) (pieces.map Pattern.exact ++ patterns)
          (w.spot (Glob.entryPath p (String.ofList piece))) = w.finds directoriesOnly bound' patterns _ :=
      ih hpieces.2 h.tail
    exact ⟨bound', by omega, hfirst.trans hrest⟩

end

end SchemaWeave
