import Mathlib.Data.List.Sort
import Mathlib.Data.String.Basic
import SchemaWeave.Proofs.Written
import SchemaWeave.Proofs.Json.Reads
import SchemaWeave.Proofs.Run

/-!
# What a written file changes about a search

A search only looks at the world, so it can be told by equations what it finds there (`World.finds`, `finds_literal`,
`finds_entries`, `sees_visit`). `Wrote w w' out parent last` says that `w'` is `w` with a file written at the path `out`, that
is, at the entry `last` of the directory `parent`. A search that meets no directory it cannot read finds the same paths in both
worlds, up to those that lead to the file when it is new (`Wrote.old_finds`, `Wrote.old_paths`): the file adds a name to one
directory, where a wildcard may meet it and a literal may ask for it, but it has nothing below it, so the search ends there.
-/

namespace SchemaWeave

open Files FileTree

/-! ## Patterns -/

namespace Files.Pattern

theorem mem_of_readRange {cs rest : List Char} {token : PatternToken} {length : Nat}
    (h : readRange cs = some (token, length, rest)) : (∀ c, token ≠ .char c) ∧ ∀ c ∈ rest, c ∈ cs := by
  have hdrop : ∀ {ds tail : List Char} {d : Char}, ds.dropWhile (· != ']') = d :: tail → ∀ c ∈ tail, c ∈ ds :=
    fun hd c hc => (List.dropWhile_sublist _).subset (hd ▸ List.mem_cons_of_mem _ hc)
  rw [readRange.eq_def] at h
  split at h
  · split at h
    · cases h
    · next hd =>
      cases h
      exact ⟨fun _ => PatternToken.noConfusion, fun c hc =>
        List.mem_cons_of_mem _ (List.mem_cons_of_mem _ (hdrop hd c hc))⟩
  · cases h
  · split at h
    · cases h
    · next hd =>
      cases h
      exact ⟨fun _ => PatternToken.noConfusion, fun c hc => List.mem_cons_of_mem _ (hdrop hd c hc)⟩
  · cases h

theorem char_of_consDirectories {done : Pattern} {c : Char} (h : .char c ∈ consDirectories done) : .char c ∈ done := by
  rw [consDirectories.eq_def] at h
  split at h
  · exact h
  · exact (List.mem_cons.mp h).resolve_left PatternToken.noConfusion

/-- The plain characters of a pattern come from its text. -/
theorem char_of_parseFrom {bound position : Nat} {before : Option Char} {done p : Pattern} {cs : List Char}
    (h : parseFrom bound position before done cs = .ok p) {c : Char} (hc : .char c ∈ p) : .char c ∈ done ∨ c ∈ cs := by
  fun_induction parseFrom bound position before done cs
  case case1 | case2 =>
    cases h
    exact Or.inl (List.mem_reverse.mp hc)
  case case3 ih =>
    rcases ih h with hdone | hrest
    · exact Or.inl ((List.mem_cons.mp hdone).resolve_left PatternToken.noConfusion)
    · exact Or.inr (List.mem_cons_of_mem _ hrest)
  case case4 | case8 | case9 | case10 => cases h
  case case5 ih =>
    rcases ih h with hdone | hrest
    · exact Or.inl ((List.mem_cons.mp hdone).resolve_left PatternToken.noConfusion)
    · exact Or.inr (List.mem_cons_of_mem _ ((List.dropWhile_sublist _).subset hrest))
  case case6 ih =>
    rcases ih h with hdone | hrest
    · exact Or.inl (char_of_consDirectories hdone)
    · cases hrest
  case case7 rest hdrop _ ih =>
    rcases ih h with hdone | hrest
    · exact Or.inl (char_of_consDirectories hdone)
    · have htail := (List.dropWhile_sublist _).subset (hdrop ▸ List.mem_cons_of_mem _ hrest)
      exact Or.inr (List.mem_cons_of_mem _ htail)
  case case11 hrange _ _ ih =>
    obtain ⟨hchar, hsub⟩ := mem_of_readRange hrange
    rcases ih h with hdone | hrest
    · exact Or.inl ((List.mem_cons.mp hdone).resolve_left fun he => hchar c he.symm)
    · exact Or.inr (List.mem_cons_of_mem _ (hsub c hrest))
  case case12 ih =>
    rcases ih h with hdone | hrest
    · rcases List.mem_cons.mp hdone with he | hdone
      · cases he
        exact Or.inr List.mem_cons_self
      · exact Or.inl hdone
    · exact Or.inr (List.mem_cons_of_mem _ hrest)

/-- A pattern for a single name: no plain character of it is a slash. -/
def Plain (p : Pattern) : Prop := .char '/' ∉ p

theorem plain_of_parse {text : List Char} {p : Pattern} (h : parse text = .ok p) (htext : '/' ∉ text) : p.Plain :=
  fun hc => (char_of_parseFrom h hc).elim List.not_mem_nil htext

theorem eq_of_literal? {p : Pattern} {name : List Char} (h : p.literal? = some name) : p = name.map .char := by
  induction p generalizing name with
  | nil =>
    cases h
    rfl
  | cons t p ih =>
    simp only [literal?, List.mapM_cons, bind, Option.bind_eq_some_iff] at h
    obtain ⟨c, hc, tail, htail, hname⟩ := h
    cases t with
    | char c =>
      cases hc
      cases hname
      rw [List.map_cons, ← ih htail]
    | _ => cases hc

theorem Plain.not_mem_literal {p : Pattern} (hp : p.Plain) {name : List Char} (h : p.literal? = some name) :
    '/' ∉ (String.ofList name).toList := by
  rw [String.toList_ofList]
  intro hc
  apply hp
  rw [eq_of_literal? h]
  exact List.mem_map_of_mem hc

end Files.Pattern

namespace Files.Glob

theorem plain_of_parsed {pieces : List (List Char)} {patterns : List Pattern}
    (h : List.Forall₂ (fun piece pattern => Pattern.parse piece = .ok pattern) pieces patterns)
    (hpieces : ∀ piece ∈ pieces, '/' ∉ piece) : ∀ pattern ∈ patterns, pattern.Plain := by
  induction h with
  | nil => exact List.forall_mem_nil _
  | cons hfirst _ ih =>
    rw [List.forall_mem_cons] at hpieces ⊢
    exact ⟨Pattern.plain_of_parse hfirst hpieces.1, ih hpieces.2⟩

theorem not_mem_of_mem_patternPieces {text piece : List Char} (h : piece ∈ patternPieces text) : '/' ∉ piece := by
  rw [patternPieces.eq_def] at h
  split at h
  · cases h
  · dsimp only at h
    split at h
    · exact not_mem_of_mem_splitSlashes (List.dropLast_sublist _ |>.subset h)
    · exact not_mem_of_mem_splitSlashes h

/-- The patterns of a search are for single names. -/
theorem Search.plain {text : List Char} {search : Search} (h : Search.ofText text = .ok search) :
    ∀ pattern ∈ search.patterns, pattern.Plain := by
  obtain ⟨_, -, h⟩ := Json.bind_eq_ok.mp h
  obtain ⟨patterns, hpatterns, h⟩ := Json.bind_eq_ok.mp h
  have hplain := plain_of_parsed (Json.mapM_eq_ok.mp hpatterns) fun _ => not_mem_of_mem_patternPieces
  have hroot : ∀ b : Bool, ∀ pattern ∈ if b then [[]] else patterns, Pattern.Plain pattern := by
    intro b
    cases b with
    | false => exact hplain
    | true => exact fun pattern hp => List.mem_singleton.mp hp ▸ List.not_mem_nil
  cases h
  exact hroot _

end Files.Glob

/-! ## What a search sees -/

section

variable (w : World)

theorem sees_isDir {p : Path} : w.sees (Host.isDir p) = true ↔ ∃ es, w.files.find w.current p = .ok (.dir es) := by
  have h : w.sees (Host.isDir p) = (w.files.find w.current p).toOption.any FileTree.isDir := by
    simp only [World.sees, Host.isDir, StateT.run_bind, StateT.run_get, pure_bind]
    cases w.files.find w.current p <;> rfl
  rw [h]
  cases w.files.find w.current p with
  | error e => simp [Except.toOption]
  | ok t => cases t <;> simp [Except.toOption, FileTree.isDir]

theorem sees_isFile {p : Path} : w.sees (Host.isFile p) = true ↔ ∃ bytes, w.files.find w.current p = .ok (.file bytes) := by
  have h : w.sees (Host.isFile p) = (w.files.find w.current p).toOption.any (!·.isDir) := by
    simp only [World.sees, Host.isFile, StateT.run_bind, StateT.run_get, pure_bind]
    cases w.files.find w.current p <;> rfl
  rw [h]
  cases w.files.find w.current p with
  | error e => simp [Except.toOption]
  | ok t => cases t <;> simp [Except.toOption, FileTree.isDir]

theorem sees_pathExists {p : Path} : w.sees (Host.pathExists p) = true ↔ ∃ t, w.files.find w.current p = .ok t := by
  rw [Host.pathExists, sees_bind w (looks_isDir p)]
  constructor
  · intro h
    split at h
    · next hdir =>
      obtain ⟨es, hes⟩ := (sees_isDir w).mp hdir
      exact ⟨_, hes⟩
    · obtain ⟨bytes, hbytes⟩ := (sees_isFile w).mp h
      exact ⟨_, hbytes⟩
  · rintro ⟨t, ht⟩
    split
    · rfl
    · next hdir =>
      cases t with
      | dir es => exact absurd ((sees_isDir w).mpr ⟨es, ht⟩) hdir
      | file bytes => exact (sees_isFile w).mpr ⟨bytes, ht⟩

/-- What has entries is a directory. -/
theorem find_of_entries {p : Path} {entries : List (String × Bool)} (h : w.files.entries w.current p = .ok entries) :
    ∃ es, w.files.find w.current p = .ok (.dir es) := by
  rw [FileTree.entries] at h
  obtain ⟨t, ht, h⟩ := Json.bind_eq_ok.mp h
  cases t with
  | dir es => exact ⟨es, ht⟩
  | file _ => cases h

theorem sees_entries (p : Path) : w.sees (Host.entries p) = w.files.entries w.current p := rfl

/-- A path with what the system says of it. -/
def World.spot (p : Path) : Glob.Spot := { path := p, isDir := w.sees (Host.isDir p) }

@[simp] theorem World.spot_path (p : Path) : (w.spot p).path = p := rfl

theorem sees_ofPath (p : Path) : w.sees (Glob.Spot.ofPath p) = w.spot p := sees_bind w (looks_isDir p) _

/-- What patterns find from a spot on. -/
abbrev World.finds (directoriesOnly : Bool) (bound : Nat) (patterns : List Pattern) (s : Glob.Spot) : Glob.Found :=
  w.sees (Glob.descend directoriesOnly bound patterns s)

/-- A name that leads to no entry. -/
def Glob.isSpecial (name : String) : Bool := name = "." || name = ".."

/-- The names that a pattern is compared with beside those of the entries. -/
def Glob.specials (pattern : Pattern) : List String :=
  (if pattern.head? = some (.char '.') then ["..", "."] else []).filter fun s => pattern.isMatch s.toList

section

variable (directoriesOnly : Bool) (bound : Nat)

theorem finds_nil (s : Glob.Spot) : w.finds directoriesOnly bound [] s = Glob.arrived directoriesOnly s := by
  rw [World.finds, Glob.descend]
  rfl

theorem finds_zero {patterns : List Pattern} (h : patterns ≠ []) (s : Glob.Spot) :
    w.finds directoriesOnly 0 patterns s = [] := by
  obtain ⟨pattern, patterns, rfl⟩ := List.exists_cons_of_ne_nil h
  rw [World.finds, Glob.descend]
  rfl

variable (pattern : Pattern) (patterns : List Pattern) (s : Glob.Spot)

/-- A path that a search goes on to is asked for. -/
theorem sees_onward (next : Path) :
    w.sees (Glob.Spot.ofPath next >>= fun t => Glob.descend directoriesOnly bound patterns t) =
      w.finds directoriesOnly bound patterns (w.spot next) := by
  rw [sees_bind w (looks_ofPath next), sees_ofPath]

/-- A piece without wildcards is followed if something is there. -/
theorem finds_literal {name : List Char} (hname : pattern.literal? = some name) :
    w.finds directoriesOnly (bound + 1) (pattern :: patterns) s =
      if (Glob.isSpecial (String.ofList name) && s.isDir ||
          !Glob.isSpecial (String.ofList name) &&
            w.sees (Host.pathExists (Glob.entryPath s.path (String.ofList name)))) = true then
        w.finds directoriesOnly bound patterns (w.spot (Glob.entryPath s.path (String.ofList name)))
      else [] := by
  rw [World.finds, Glob.descend]
  simp only [hname]
  rw [sees_bind w (looks_pathExists _), Glob.isSpecial, ← sees_onward]
  split <;> rfl

/-- Any other piece is compared with the names in a directory. -/
theorem finds_entries (hname : pattern.literal? = none) (hdir : s.isDir = true) {entries : List (String × Bool)}
    (hentries : w.files.entries w.current s.path = .ok entries) :
    w.finds directoriesOnly (bound + 1) (pattern :: patterns) s =
      (Glob.specials pattern).flatMap
        (fun d => w.finds directoriesOnly bound patterns (w.spot (Path.join s.path d))) ++
      (entries.mergeSort fun e e' => e.1 ≤ e'.1).flatMap
        fun e => w.sees (Glob.visit directoriesOnly bound (pattern :: patterns) (Glob.Spot.entry s.path e) e.1) := by
  rw [World.finds, Glob.descend]
  simp only [hname]
  rw [hdir, Bool.not_true, if_neg Bool.false_ne_true, sees_bind w (looks_entries s.path), sees_entries, hentries]
  dsimp only
  have honward : ∀ d, Looks (Glob.Spot.ofPath (Path.join s.path d) >>= fun t =>
      Glob.descend directoriesOnly bound patterns t) := fun d =>
    (looks_ofPath _).bind fun t => looks_descend bound patterns t
  have hvisit : ∀ e : String × Bool,
      Looks (Glob.visit directoriesOnly bound (pattern :: patterns) (Glob.Spot.entry s.path e) e.1) :=
    fun e => looks_visit _ _ _ e.1
  refine (sees_bind w (Looks.mapM fun d _ => honward d) _).trans ?_
  refine (sees_bind w (Looks.mapM fun e _ => hvisit e) _).trans ?_
  rw [sees_pure, sees_mapM w hvisit, sees_mapM w honward]
  simp only [sees_onward]
  rfl

/-- In a tree the entries are those of the directory. -/
theorem finds_names (hname : pattern.literal? = none) (hdir : s.isDir = true) {entries : List (String × FileTree)}
    (hentries : w.files.find w.current s.path = .ok (.dir entries)) :
    w.finds directoriesOnly (bound + 1) (pattern :: patterns) s =
      (Glob.specials pattern).flatMap
        (fun d => w.finds directoriesOnly bound patterns (w.spot (Path.join s.path d))) ++
      ((entries.map (·.1)).mergeSort (· ≤ ·)).flatMap fun name => w.sees (Glob.visit directoriesOnly bound
        (pattern :: patterns) (Glob.Spot.entry s.path (name, hasDir entries name)) name) := by
  have hlisting : listing entries = (entries.map (·.1)).map fun name => (name, hasDir entries name) := by
    rw [List.map_map]
    rfl
  have hsorted : (listing entries).mergeSort (fun e e' => e.1 ≤ e'.1) =
      ((entries.map (·.1)).mergeSort (· ≤ ·)).map fun name => (name, hasDir entries name) := by
    rw [hlisting]
    refine (List.map_mergeSort (f := fun name => (name, hasDir entries name)) ?_).symm
    exact fun _ _ _ _ => rfl
  have hread : w.files.entries w.current s.path = .ok (listing entries) := by
    rw [FileTree.entries, hentries]
    rfl
  rw [finds_entries w _ _ _ _ _ hname hdir hread, hsorted, List.flatMap_map]

theorem finds_file (hname : pattern.literal? = none) (hdir : s.isDir = false) :
    w.finds directoriesOnly (bound + 1) (pattern :: patterns) s = [] := by
  rw [World.finds, Glob.descend]
  simp only [hname]
  rw [hdir]
  rfl

/-- A directory that cannot be read is found as such. -/
theorem finds_unreadable (hname : pattern.literal? = none) (hdir : s.isDir = true) {e : OsError}
    (hentries : w.files.entries w.current s.path = .error e) :
    w.finds directoriesOnly (bound + 1) (pattern :: patterns) s = [.error ⟨s.path, e⟩] := by
  rw [World.finds, Glob.descend]
  simp only [hname]
  rw [hdir, Bool.not_true, if_neg Bool.false_ne_true, sees_bind w (looks_entries s.path), sees_entries, hentries]
  rfl

/-- What the patterns find at an entry itself. -/
def World.seesAt (further : List Pattern) (name : String) : Glob.Found :=
  match further with
  | [] => Glob.arrived true s
  | pattern :: rest => if pattern.isMatch name.toList then w.finds directoriesOnly bound rest s else []

/-- The patterns that are left for an entry, where directories may be passed. -/
def Glob.further (patterns : List Pattern) : List Pattern :=
  if (patterns.head?.map Pattern.isRecursive).getD false then Glob.dropRecursive patterns else patterns

theorem sees_visit (name : String) : w.sees (Glob.visit directoriesOnly (bound + 1) patterns s name) =
    w.seesAt directoriesOnly bound s (Glob.further patterns) name ++
      if ((patterns.head?.map Pattern.isRecursive).getD false && s.isDir) = true then
        w.finds directoriesOnly bound ([.directories] :: Glob.further patterns) s
      else [] := by
  rw [Glob.visit, Glob.further]
  generalize (patterns.head?.map Pattern.isRecursive).getD false = isRecursive
  dsimp only
  generalize (if isRecursive = true then Glob.dropRecursive patterns else patterns) = further
  have hbelow : ∀ here : Glob.Found, w.sees
      (if (isRecursive && s.isDir) = true then do
        let below ← Glob.descend directoriesOnly bound ([.directories] :: further) s
        return here ++ below
      else do
        let below ← pure []
        return here ++ below) =
      here ++ if (isRecursive && s.isDir) = true then
        w.finds directoriesOnly bound ([.directories] :: further) s else [] := by
    intro here
    split
    · rw [sees_bind w (looks_descend _ _ _), sees_pure]
    · rfl
  match further with
  | [] => exact hbelow _
  | pattern :: rest =>
    dsimp only [World.seesAt]
    split
    · exact (sees_bind w (looks_descend _ _ _) _).trans (hbelow _)
    · exact hbelow []

end

/-- The bound that a search starts with: no path is so deep. -/
def Files.Glob.Search.bound (search : Glob.Search) : Nat := 2 * (Glob.deepest + search.patterns.length)

/-- What a search finds. -/
def World.foundBy (search : Glob.Search) : Glob.Found :=
  w.finds search.directoriesOnly search.bound search.patterns (w.spot search.start)

/-- The paths of a pattern are found from where its search starts, within a bound that is far enough. -/
theorem sees_paths {text : String} {search : Glob.Search} (h : Glob.Search.ofText text.toList = .ok search)
    (hne : search.patterns ≠ []) : w.sees (Glob.paths text) = .ok (w.foundBy search) := by
  have hsome : search.patterns.isEmpty = false := by simpa using hne
  rw [Glob.paths, h]
  dsimp only
  rw [hsome, if_neg Bool.false_ne_true, sees_bind w (looks_ofPath _), sees_ofPath, sees_bind w (looks_descend _ _ _)]
  rfl

end

/-! ## A file that is written -/

instance (root root' : FileTree) (current place : Place) (p : Path) : Decidable (Fresh root root' current place p) :=
  inferInstanceAs (Decidable (_ ∧ _))

/-- `w'` is `w` with a file written at a path. -/
structure Wrote (w w' : World) (out : Path) (parent : Place) (last : String) : Prop where
  place : WritesAt w.files w.current out parent last
  files : ∃ content, w'.files = put (.file content) (parent ++ [last]) w.files
  current : w'.current = w.current

/-- A path that leads to the file, and to nothing in the world without it. -/
abbrev World.Fresh (w w' : World) (place : Place) (p : Path) : Prop :=
  FileTree.Fresh w.files w'.files w.current place p

/-- What is found of a search without the new file. -/
def World.old (w w' : World) (place : Place) (found : Glob.Found) : Glob.Found :=
  found.filter fun
    | .ok p => !decide (w.Fresh w' place p)
    | .error _ => true

/-! ### Sorted names -/

theorem filter_mergeSort (keep : String → Bool) (names : List String) :
    (names.mergeSort (· ≤ ·)).filter keep = (names.filter keep).mergeSort (· ≤ ·) := by
  refine List.Perm.eq_of_sortedLE ?_ List.sortedLE_mergeSort ?_
  · exact (List.sortedLE_mergeSort.pairwise.filter keep).sortedLE
  · exact ((List.mergeSort_perm _ _).filter keep).trans (List.mergeSort_perm _ _).symm

theorem flatMap_filter_ne {α β : Type} [DecidableEq α] {a : α} {f : α → List β} (hf : f a = []) (l : List α) :
    (l.filter (· ≠ a)).flatMap f = l.flatMap f := by
  induction l with
  | nil => rfl
  | cons b l ih =>
    by_cases hb : b = a
    · simp_all
    · simp [hb, ← ih]

/-- A name that gives nothing does not show among sorted names. -/
theorem flatMap_mergeSort_concat {β : Type} {last : String} {f : String → List β} (hf : f last = [])
    (names : List String) :
    ((names ++ [last]).mergeSort (· ≤ ·)).flatMap f = (names.mergeSort (· ≤ ·)).flatMap f := by
  rw [← flatMap_filter_ne hf, filter_mergeSort, List.filter_append, ← flatMap_filter_ne hf (names.mergeSort _),
    filter_mergeSort]
  simp

/-! ### Steps of a search -/

/-- An entry leads one step on from where its directory leads. -/
theorem leads_entryPath (root : FileTree) (current : Place) (p : Path) {name : String} (hname : '/' ∉ name.toList) :
    leads root current (Glob.entryPath p name) = leads root current p >>= fun r => follow root r name := by
  rw [Glob.entryPath]
  split
  · next hcurrent => exact leads_of_isCurrent root current hcurrent hname
  · exact leads_join root current hname

section

variable {w w' : World} {out : Path} {parent : Place} {last : String} (h : Wrote w w' out parent last)

include h

theorem Wrote.isDir (p : Path) : w'.sees (Host.isDir p) = w.sees (Host.isDir p) := by
  obtain ⟨content, hfiles⟩ := h.files
  rw [Bool.eq_iff_iff, sees_isDir, sees_isDir, h.current]
  exact h.place.find_dir hfiles

/-- What is at a path in the world with the file is there in the world without it, unless it is the new file. -/
theorem Wrote.pathExists (p : Path) : w'.sees (Host.pathExists p) = w.sees (Host.pathExists p) ∨
    w.sees (Host.pathExists p) = false ∧ w.Fresh w' (parent ++ [last]) p := by
  obtain ⟨content, hfiles⟩ := h.files
  cases hw : w.sees (Host.pathExists p) with
  | true =>
    obtain ⟨t, ht⟩ := (sees_pathExists w).mp hw
    refine Or.inl ((sees_pathExists w').mpr ?_)
    rw [h.current]
    cases t with
    | dir es =>
      obtain ⟨es', hes'⟩ := (h.place.find_dir hfiles).mpr ⟨es, ht⟩
      exact ⟨_, hes'⟩
    | file bytes =>
      obtain ⟨bytes', hbytes', -⟩ := h.place.find_file hfiles ht
      exact ⟨_, hbytes'⟩
  | false =>
    have hnone : ∀ t, w.files.find w.current p ≠ .ok t := by
      intro t ht
      rw [(sees_pathExists w).mpr ⟨t, ht⟩] at hw
      cases hw
    cases hw' : w'.sees (Host.pathExists p) with
    | false => exact Or.inl rfl
    | true =>
      obtain ⟨t, ht⟩ := (sees_pathExists w').mp hw'
      rw [h.current] at ht
      cases t with
      | dir es =>
        obtain ⟨es, hes⟩ := (h.place.find_dir hfiles).mp ⟨es, ht⟩
        exact absurd hes (hnone _)
      | file bytes =>
        rcases h.place.find_file_before hfiles ht with ⟨bytes, hbytes⟩ | hfresh
        · exact absurd hbytes (hnone _)
        · exact Or.inr ⟨rfl, hfresh⟩

theorem Wrote.get?_self : ∃ content, w'.files.get? (parent ++ [last]) = some (.file content) := by
  obtain ⟨content, hfiles⟩ := h.files
  exact ⟨content, hfiles ▸ h.place.get?_self content⟩

/-- The new file is no directory, nor was one in its place. -/
theorem Wrote.isDir_fresh {p : Path} (hp : w.Fresh w' (parent ++ [last]) p) : w.sees (Host.isDir p) = false := by
  rw [← h.isDir]
  refine Bool.eq_false_iff.mpr fun hdir => ?_
  obtain ⟨es, hes⟩ := (sees_isDir w').mp hdir
  obtain ⟨-, r, hr, hget⟩ := find_eq_ok.mp hes
  rw [h.current, hp.2] at hr
  cases hr
  obtain ⟨content, hself⟩ := h.get?_self
  rw [hself] at hget
  cases hget

/-- Nothing is below the new file. -/
theorem Wrote.pathExists_below {p : Path} (hp : w.Fresh w' (parent ++ [last]) p) {name : String}
    (hname : '/' ∉ name.toList) : w'.sees (Host.pathExists (Glob.entryPath p name)) = false := by
  refine Bool.eq_false_iff.mpr fun hexists => ?_
  obtain ⟨t, ht⟩ := (sees_pathExists w').mp hexists
  obtain ⟨-, r, hr, -⟩ := find_eq_ok.mp ht
  rw [h.current, leads_entryPath _ _ _ hname, hp.2] at hr
  obtain ⟨content, hself⟩ := h.get?_self
  obtain ⟨entries, he, -⟩ := follow_eq_ok.mp hr
  rw [hself] at he
  cases he

theorem Wrote.spot (p : Path) : w'.spot p = w.spot p := by rw [World.spot, World.spot, h.isDir]

/-- A directory has the same names, or the name of the new file behind them, where the entry is new. -/
theorem Wrote.names {p : Path} {es : List (String × FileTree)} (hes : w.files.find w.current p = .ok (.dir es)) :
    ∃ es', w'.files.find w'.current p = .ok (.dir es') ∧ hasDir es' = hasDir es ∧ (es'.map (·.1) = es.map (·.1) ∨
      es'.map (·.1) = es.map (·.1) ++ [last] ∧ hasDir es last = false ∧
        w.Fresh w' (parent ++ [last]) (Glob.entryPath p last)) := by
  obtain ⟨content, hfiles⟩ := h.files
  obtain ⟨es', hes'⟩ := (h.place.find_dir hfiles).mpr ⟨es, hes⟩
  obtain ⟨hkinds, hsame⟩ := h.place.names hfiles hes hes'
  refine ⟨es', h.current ▸ hes', hkinds, hsame.imp_right fun hnew => ⟨hnew.1, ?_⟩⟩
  obtain ⟨-, hnone, hleads⟩ := hnew
  refine ⟨?_, hnone, ?_⟩
  · obtain ⟨-, r, hr, hget⟩ := find_eq_ok.mp hes
    cases hleads.symm.trans hr
    rw [hasDir, ← get?_concat hget, hnone]
    rfl
  · rw [leads_entryPath _ _ _ h.place.not_mem_last, h.place.leads_after hfiles hleads, hfiles]
    exact h.place.follow_last content

/-! ### The search -/

section

variable {directoriesOnly : Bool} {bound : Nat} {s : Glob.Spot} {patterns : List Pattern}

/-- A search that goes on below the new file finds nothing. -/
theorem Wrote.finds_fresh (hp : w.Fresh w' (parent ++ [last]) s.path) (hdir : s.isDir = false) (hne : patterns ≠ [])
    (hplain : ∀ pattern ∈ patterns, pattern.Plain) : w'.finds directoriesOnly bound patterns s = [] := by
  obtain ⟨pattern, patterns, rfl⟩ := List.exists_cons_of_ne_nil hne
  cases bound with
  | zero => exact finds_zero w' _ hne s
  | succ bound =>
    cases hname : pattern.literal? with
    | none => exact finds_file w' directoriesOnly bound pattern patterns s hname hdir
    | some name =>
      have hslash := (hplain pattern List.mem_cons_self).not_mem_literal hname
      rw [finds_literal w' directoriesOnly bound pattern patterns s hname, hdir, h.pathExists_below hp hslash]
      simp

/-- A search that comes to the new file finds nothing old. -/
theorem Wrote.old_finds_fresh (hp : w.Fresh w' (parent ++ [last]) s.path) (hdir : s.isDir = false)
    (hplain : ∀ pattern ∈ patterns, pattern.Plain) :
    w.old w' (parent ++ [last]) (w'.finds directoriesOnly bound patterns s) = [] := by
  cases patterns with
  | nil =>
    rw [finds_nil, Glob.arrived]
    split
    · rfl
    · simp [World.old, hp]
  | cons pattern patterns =>
    rw [h.finds_fresh hp hdir (List.cons_ne_nil _ _) hplain]
    rfl

omit h in
theorem plain_further (hplain : ∀ pattern ∈ patterns, pattern.Plain) : ∀ pattern ∈ Glob.further patterns, pattern.Plain := by
  rw [Glob.further]
  split
  · exact fun pattern hp => hplain pattern ((List.dropWhile_sublist _).subset hp)
  · exact hplain

theorem Wrote.old_visit_fresh (hp : w.Fresh w' (parent ++ [last]) s.path) (hdir : s.isDir = false)
    (hplain : ∀ pattern ∈ patterns, pattern.Plain) (name : String) :
    w.old w' (parent ++ [last]) (w'.sees (Glob.visit directoriesOnly bound patterns s name)) = [] := by
  cases bound with
  | zero =>
    rw [Glob.visit]
    rfl
  | succ bound =>
    have hfurther := plain_further hplain
    rw [sees_visit, hdir, Bool.and_false, if_neg Bool.false_ne_true, List.append_nil]
    cases hf : Glob.further patterns with
    | nil =>
      rw [World.seesAt, Glob.arrived, hdir]
      rfl
    | cons pattern rest =>
      rw [hf] at hfurther
      rw [World.seesAt]
      split
      · exact h.old_finds_fresh hp hdir fun q hq => hfurther q (List.mem_cons_of_mem _ hq)
      · rfl

omit h in
theorem old_append (found found' : Glob.Found) : w.old w' (parent ++ [last]) (found ++ found') =
    w.old w' (parent ++ [last]) found ++ w.old w' (parent ++ [last]) found' :=
  List.filter_append ..

omit h in
theorem old_flatMap {α : Type} (f : α → Glob.Found) (l : List α) : w.old w' (parent ++ [last]) (l.flatMap f) =
    l.flatMap fun a => w.old w' (parent ++ [last]) (f a) :=
  List.filter_flatMap

omit h in
theorem not_mem_of_append {found found' : Glob.Found} (h : ∀ e, .error e ∉ found ++ found') :
    (∀ e, .error e ∉ found) ∧ ∀ e, .error e ∉ found' :=
  ⟨fun e he => h e (List.mem_append_left _ he), fun e he => h e (List.mem_append_right _ he)⟩

omit h in
/-- A directory whose entries are looked at without an error is one in the tree. -/
theorem find_of_reads {pattern : Pattern} (hname : pattern.literal? = none) (hdir : s.isDir = true)
    (hread : ∀ e, .error e ∉ w.finds directoriesOnly (bound + 1) (pattern :: patterns) s) :
    ∃ es, w.files.find w.current s.path = .ok (.dir es) := by
  cases hentries : w.files.entries w.current s.path with
  | error e =>
    rw [finds_unreadable w _ _ _ _ _ hname hdir hentries] at hread
    exact absurd List.mem_cons_self (hread _)
  | ok entries => exact find_of_entries w hentries

omit h in
/-- What is found without errors, entry by entry, is found without errors at each. -/
theorem not_mem_of_flatMap {α : Type} {f : α → Glob.Found} {l : List α} (hl : ∀ e, .error e ∉ l.flatMap f) {a : α}
    (ha : a ∈ l) (e : GlobError) : .error e ∉ f a :=
  fun he => hl e (List.mem_flatMap.mpr ⟨a, ha, he⟩)

omit h in
/-- What is found at sorted names; a new one comes among the others, and gives nothing old. -/
theorem old_mergeSort {f f' : String → Glob.Found} {names names' : List String}
    (hnames : names' = names ∨ names' = names ++ [last] ∧ w.old w' (parent ++ [last]) (f' last) = [])
    (hsame : ∀ name ∈ names, w.old w' (parent ++ [last]) (f' name) = w.old w' (parent ++ [last]) (f name)) :
    w.old w' (parent ++ [last]) ((names'.mergeSort (· ≤ ·)).flatMap f') =
      w.old w' (parent ++ [last]) ((names.mergeSort (· ≤ ·)).flatMap f) := by
  have hold : (names.mergeSort (· ≤ ·)).flatMap (fun name => w.old w' (parent ++ [last]) (f' name)) =
      (names.mergeSort (· ≤ ·)).flatMap fun name => w.old w' (parent ++ [last]) (f name) :=
    List.flatMap_congr fun name hn => hsame name (List.mem_mergeSort.mp hn)
  rw [old_flatMap, old_flatMap, ← hold]
  rcases hnames with rfl | ⟨rfl, hnothing⟩
  · rfl
  · exact flatMap_mergeSort_concat hnothing names

omit h in
/-- What is found at an entry is the same, up to the new file, if what is found behind it is. -/
theorem old_visit (hplain : ∀ pattern ∈ patterns, pattern.Plain) {name : String}
    (hread : ∀ e, .error e ∉ w.sees (Glob.visit directoriesOnly (bound + 1) patterns s name))
    (ih : ∀ {left : List Pattern}, (∀ pattern ∈ left, pattern.Plain) → (∀ e, .error e ∉ w.finds directoriesOnly bound left s) →
      w.old w' (parent ++ [last]) (w'.finds directoriesOnly bound left s) =
        w.old w' (parent ++ [last]) (w.finds directoriesOnly bound left s)) :
    w.old w' (parent ++ [last]) (w'.sees (Glob.visit directoriesOnly (bound + 1) patterns s name)) =
      w.old w' (parent ++ [last]) (w.sees (Glob.visit directoriesOnly (bound + 1) patterns s name)) := by
  have hfurther := plain_further hplain
  rw [sees_visit] at hread
  obtain ⟨hat, hbelow⟩ := not_mem_of_append hread
  rw [sees_visit, sees_visit, old_append, old_append]
  congr 1
  · cases hf : Glob.further patterns with
    | nil => rfl
    | cons pattern rest =>
      rw [hf] at hfurther hat
      rw [World.seesAt] at hat ⊢
      rw [World.seesAt]
      split
      · next hmatch =>
        rw [if_pos hmatch] at hat
        exact ih (fun q hq => hfurther q (List.mem_cons_of_mem _ hq)) hat
      · rfl
  · split
    · next hgoes =>
      rw [if_pos hgoes] at hbelow
      refine ih (fun q hq => ?_) hbelow
      rcases List.mem_cons.mp hq with rfl | hq
      · intro hc
        cases List.mem_singleton.mp hc
      · exact hfurther q hq
    · rfl

/-- **In both worlds a search finds the same, up to the new file**, where it can read all directories that it meets. By
induction on the bound, as the search goes. -/
theorem Wrote.old_finds (hplain : ∀ pattern ∈ patterns, pattern.Plain)
    (hread : ∀ e, .error e ∉ w.finds directoriesOnly bound patterns s) :
    w.old w' (parent ++ [last]) (w'.finds directoriesOnly bound patterns s) =
      w.old w' (parent ++ [last]) (w.finds directoriesOnly bound patterns s) := by
  induction bound using Nat.strongRecOn generalizing patterns s with | ind bound ih => ?_
  rcases patterns with _ | ⟨pattern, patterns⟩
  · rw [finds_nil, finds_nil]
  rcases bound with _ | bound
  · rw [finds_zero w' _ (List.cons_ne_nil _ _), finds_zero w _ (List.cons_ne_nil _ _)]
  have htail : ∀ q ∈ patterns, q.Plain := fun q hq => hplain q (List.mem_cons_of_mem _ hq)
  have honward (next : Path) (hnext : ∀ e, .error e ∉ w.finds directoriesOnly bound patterns (w.spot next)) :
      w.old w' (parent ++ [last]) (w'.finds directoriesOnly bound patterns (w'.spot next)) =
        w.old w' (parent ++ [last]) (w.finds directoriesOnly bound patterns (w.spot next)) := by
    rw [h.spot]
    exact ih bound (Nat.lt_succ_self bound) htail hnext
  cases hname : pattern.literal? with
  | some name =>
    rw [finds_literal w _ _ _ _ _ hname] at hread
    rw [finds_literal w' _ _ _ _ _ hname, finds_literal w _ _ _ _ _ hname]
    rcases h.pathExists (Glob.entryPath s.path (String.ofList name)) with hsame | ⟨-, hfresh⟩
    · rw [hsame]
      split
      · next hgoes =>
        rw [if_pos hgoes] at hread
        exact honward _ hread
      · rfl
    · -- the piece leads to the new file, so nothing old is found whether it is followed or not
      have hnothing : w.old w' (parent ++ [last]) (w'.finds directoriesOnly bound patterns
          (w'.spot (Glob.entryPath s.path (String.ofList name)))) = [] := by
        rw [h.spot]
        exact h.old_finds_fresh hfresh (h.isDir_fresh hfresh) htail
      refine Eq.trans (b := []) ?_ (Eq.symm ?_)
      · split
        · exact hnothing
        · rfl
      · split
        · next hgoes =>
          rw [if_pos hgoes] at hread
          rw [← honward _ hread, hnothing]
        · rfl
  | none =>
    cases hdir : s.isDir with
    | false => rw [finds_file w' _ _ _ _ _ hname hdir, finds_file w _ _ _ _ _ hname hdir]
    | true =>
      obtain ⟨es, hes⟩ := find_of_reads hname hdir hread
      obtain ⟨es', hes', hkinds, hsame⟩ := h.names hes
      rw [finds_names w _ _ _ _ _ hname hdir hes] at hread
      rw [finds_names w' _ _ _ _ _ hname hdir hes', finds_names w _ _ _ _ _ hname hdir hes, hkinds]
      obtain ⟨hspecial, hnames⟩ := not_mem_of_append hread
      rw [old_append, old_append]
      congr 1
      · rw [old_flatMap, old_flatMap]
        exact List.flatMap_congr fun d hd => honward _ (not_mem_of_flatMap hspecial hd)
      · refine old_mergeSort (hsame.imp_right fun hnew => ⟨hnew.1, ?_⟩) fun name hn => ?_
        · exact h.old_visit_fresh (s := Glob.Spot.entry s.path (last, hasDir es last)) hnew.2.2 hnew.2.1 hplain last
        rcases bound with _ | bound
        · rw [Glob.visit]
          rfl
        · have hclean := not_mem_of_flatMap hnames (List.mem_mergeSort.mpr hn)
          exact old_visit hplain hclean (ih bound (by omega))

end

/-- **The paths that a pattern matches are the same in both worlds, up to the new file**, where all directories can be read. -/
theorem Wrote.old_paths {text : String}
    (hread : ∀ found, w.sees (Glob.paths text) = .ok found → ∀ e, .error e ∉ found) :
    (w'.sees (Glob.paths text)).map (w.old w' (parent ++ [last])) =
      (w.sees (Glob.paths text)).map (w.old w' (parent ++ [last])) := by
  cases hsearch : Glob.Search.ofText text.toList with
  | error e =>
    rw [Glob.paths, hsearch]
    rfl
  | ok search =>
    by_cases hne : search.patterns = []
    · rw [Glob.paths, hsearch]
      dsimp only
      rw [if_pos (by rw [hne]; rfl)]
      rfl
    · rw [sees_paths w hsearch hne] at hread
      rw [sees_paths w' hsearch hne, sees_paths w hsearch hne, World.foundBy, World.foundBy, h.spot]
      exact congrArg Except.ok (h.old_finds (Glob.Search.plain hsearch) (hread _ rfl))

end

end SchemaWeave
