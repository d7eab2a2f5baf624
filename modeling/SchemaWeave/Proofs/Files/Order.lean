import SchemaWeave.Proofs.Files.Stands

/-!
# The order of what a search finds

Where only names are left to spell, a search with at most one run of two stars finds no path twice, and where no more than
one piece comes behind the two stars, it finds the paths in the order of their names (`spelled_finds`). The names of a
directory are sorted, but what lies below a directory comes after all that the pieces behind two stars find in it.
-/

namespace SchemaWeave

open Files FileTree

/-! ## Pieces that names stand for -/

namespace Files

/-- Whether only names stand for a piece: it is a name itself, or has wildcards that match no dots. -/
def Pattern.isLevel (pattern : Pattern) : Bool :=
  match pattern.literal? with
  | some name => isName (String.ofList name)
  | none => (Glob.specials pattern).isEmpty

/-- The pieces behind the first run of two stars. -/
def Glob.behind (patterns : List Pattern) : List Pattern := dropRecursive (patterns.dropWhile fun q => !q.isRecursive)

/-- How many pieces stand for one name each. -/
def Glob.depth (patterns : List Pattern) : Nat := patterns.countP fun q => !q.isRecursive

section

variable {pattern : Pattern} {patterns : List Pattern}

theorem Glob.behind_cons (h : pattern.isRecursive = false) : behind (pattern :: patterns) = behind patterns := by
  rw [behind, List.dropWhile_cons_of_pos (by simp [h]), behind]

theorem Glob.behind_recursive (h : pattern.isRecursive = true) : behind (pattern :: patterns) = dropRecursive patterns := by
  rw [behind, List.dropWhile_cons_of_neg (by simp [h]), dropRecursive, List.dropWhile_cons_of_pos h, dropRecursive]

theorem Glob.behind_eq_nil (h : ∀ q ∈ patterns, q.isRecursive = false) : behind patterns = [] := by
  induction patterns with
  | nil => rfl
  | cons pattern patterns ih =>
    rw [List.forall_mem_cons] at h
    rw [behind_cons h.1, ih h.2]

theorem Glob.depth_dropRecursive (patterns : List Pattern) : depth (dropRecursive patterns) = depth patterns := by
  induction patterns with
  | nil => rfl
  | cons pattern patterns ih =>
    cases h : pattern.isRecursive with
    | false => rw [dropRecursive, List.dropWhile_cons_of_neg (by simp [h])]
    | true =>
      rw [dropRecursive, List.dropWhile_cons_of_pos h, ← dropRecursive, ih, depth, depth,
        List.countP_cons_of_neg (by simp [h])]

theorem Glob.depth_eq_length (h : ∀ q ∈ patterns, q.isRecursive = false) : depth patterns = patterns.length :=
  List.countP_eq_length.mpr fun q hq => by simp [h q hq]

end

end Files

/-! ## Lists of spelled paths -/

/-- The paths among what is found. -/
def Files.Glob.Found.paths (found : Glob.Found) : List Path := found.filterMap Except.toOption

/-- The paths that are found are spelled by lists of names, all of one kind; the lists are distinct in one case, in order in
another. -/
def Spelled (p : Path) (kind : List String → Prop) (once ascending : Prop) (found : Glob.Found) : Prop :=
  ∃ spelled : List (List String), Glob.Found.paths found = spelled.map (Glob.spellNames p) ∧
    (∀ names ∈ spelled, kind names) ∧ (once → spelled.Nodup) ∧ (ascending → spelled.Pairwise (· < ·))

namespace Spelled

variable {p : Path} {kind kind' : List String → Prop} {once once' ascending ascending' : Prop} {found found' : Glob.Found}

theorem none : Spelled p kind once ascending [] :=
  ⟨[], rfl, List.forall_mem_nil _, fun _ => List.nodup_nil, fun _ => List.Pairwise.nil⟩

/-- A directory that cannot be read is no path. -/
theorem error (e : GlobError) : Spelled p kind once ascending [.error e] :=
  ⟨[], rfl, List.forall_mem_nil _, fun _ => List.nodup_nil, fun _ => List.Pairwise.nil⟩

theorem single (h : kind []) : Spelled p kind once ascending [.ok p] :=
  ⟨[[]], rfl, List.forall_mem_singleton.mpr h, fun _ => List.nodup_singleton _, fun _ => List.pairwise_singleton _ _⟩

theorem arrived {directoriesOnly : Bool} {s : Glob.Spot} (h : kind []) :
    Spelled s.path kind once ascending (Glob.arrived directoriesOnly s) := by
  rw [Glob.arrived]
  split
  · exact none
  · exact single h

theorem mono (h : Spelled p kind once ascending found) (hkind : ∀ names, kind names → kind' names) (honce : once' → once)
    (hascending : ascending' → ascending) : Spelled p kind' once' ascending' found := by
  obtain ⟨spelled, hfound, hall, hnodup, hsorted⟩ := h
  exact ⟨spelled, hfound, fun names hn => hkind names (hall names hn), hnodup ∘ honce, hsorted ∘ hascending⟩

/-- Lists of two kinds stand one behind the other, if those of one kind come before those of the other. -/
theorem append (h : Spelled p kind once ascending found) (h' : Spelled p kind' once ascending found')
    (hne : once → ∀ names names', kind names → kind' names' → names ≠ names')
    (hlt : ascending → ∀ names names', kind names → kind' names' → names < names') :
    Spelled p (fun names => kind names ∨ kind' names) once ascending (found ++ found') := by
  obtain ⟨spelled, hpaths, hall, hnodup, hsorted⟩ := h
  obtain ⟨spelled', hpaths', hall', hnodup', hsorted'⟩ := h'
  refine ⟨spelled ++ spelled', ?_, fun names hn => ?_, fun ho => ?_, fun ha => ?_⟩
  · rw [Glob.Found.paths, List.filterMap_append, List.map_append, ← hpaths, ← hpaths', Glob.Found.paths, Glob.Found.paths]
  · exact (List.mem_append.mp hn).imp (hall names) (hall' names)
  · refine List.nodup_append.mpr ⟨hnodup ho, hnodup' ho, fun names hn names' hn' => ?_⟩
    exact hne ho names names' (hall names hn) (hall' names' hn')
  · refine List.pairwise_append.mpr ⟨hsorted ha, hsorted' ha, fun names hn names' hn' => ?_⟩
    exact hlt ha names names' (hall names hn) (hall' names' hn')

/-- What is found at names in order, each name in front. -/
theorem flatMap {names : List String} (hnames : names.Pairwise (· < ·)) {f : String → Glob.Found}
    (h : ∀ name ∈ names, Spelled (Glob.entryPath p name) (fun rest => kind (name :: rest)) once ascending (f name)) :
    Spelled p kind once ascending (names.flatMap f) := by
  have hall : ∀ name, ∃ spelled : List (List String), name ∈ names →
      Glob.Found.paths (f name) = spelled.map (fun rest => Glob.spellNames p (name :: rest)) ∧
      (∀ rest ∈ spelled, kind (name :: rest)) ∧ (once → spelled.Nodup) ∧ (ascending → spelled.Pairwise (· < ·)) := by
    intro name
    by_cases hmem : name ∈ names
    · obtain ⟨spelled, hspelled⟩ := h name hmem
      exact ⟨spelled, fun _ => hspelled⟩
    · exact ⟨[], fun hmem' => absurd hmem' hmem⟩
  choose spelled hspelled using hall
  have hfronted (name : String) {rest : List String} (hr : rest ∈ (spelled name).map (name :: ·)) :
      ∃ tail ∈ spelled name, name :: tail = rest := List.mem_map.mp hr
  have hlt {name name' : String} (hlt : name < name') : ∀ rest ∈ (spelled name).map (name :: ·),
      ∀ rest' ∈ (spelled name').map (name' :: ·), rest < rest' := by
    intro rest hr rest' hr'
    obtain ⟨tail, -, rfl⟩ := hfronted name hr
    obtain ⟨tail', -, rfl⟩ := hfronted name' hr'
    exact List.cons_lt_cons_iff.mpr (Or.inl hlt)
  refine ⟨names.flatMap fun name => (spelled name).map (name :: ·), ?_, fun rest hr => ?_, fun ho => ?_, fun ha => ?_⟩
  · rw [Glob.Found.paths, List.filterMap_flatMap, List.map_flatMap]
    refine List.flatMap_congr fun name hmem => ?_
    rw [← Glob.Found.paths, (hspelled name hmem).1, List.map_map]
    rfl
  · obtain ⟨name, hmem, hr⟩ := List.mem_flatMap.mp hr
    obtain ⟨tail, htail, rfl⟩ := hfronted name hr
    exact (hspelled name hmem).2.1 tail htail
  · refine List.nodup_flatMap.mpr ⟨fun name hmem => ?_, hnames.imp fun {name name'} h => ?_⟩
    · exact ((hspelled name hmem).2.2.1 ho).map (List.cons_injective)
    · intro rest hr hr'
      exact lt_irrefl rest (hlt h rest hr rest hr')
  · refine List.pairwise_flatMap.mpr ⟨fun name hmem => ?_, hnames.imp fun h => hlt h⟩
    rw [List.pairwise_map]
    exact ((hspelled name hmem).2.2.2 ha).imp fun h => List.cons_lt_cons_iff.mpr (Or.inr ⟨rfl, h⟩)

theorem cons {name : String}
    (h : Spelled (Glob.entryPath p name) (fun rest => kind (name :: rest)) once ascending found) :
    Spelled p kind once ascending found := by
  have hone : Spelled p kind once ascending ([name].flatMap fun _ => found) :=
    flatMap (List.pairwise_singleton _ name) fun name' hmem => List.mem_singleton.mp hmem ▸ h
  rwa [List.flatMap_singleton] at hone

end Spelled

/-! ## What is found below a path -/

/-- Lists of names that patterns may stand for: names of entries, as many as there are pieces for one name, or more where two
stars are among the pieces. -/
structure Deep (patterns : List Pattern) (names : List String) : Prop where
  named : ∀ name ∈ names, Named name
  least : Glob.depth patterns ≤ names.length
  most : (∀ q ∈ patterns, q.isRecursive = false) → names.length = patterns.length
  ne_nil : patterns ≠ [] → names ≠ []

theorem pairwise_mergeSort {names : List String} (h : names.Nodup) : (names.mergeSort (· ≤ ·)).Pairwise (· < ·) := by
  have hnodup : (names.mergeSort (· ≤ ·)).Nodup := (List.mergeSort_perm names _).nodup_iff.mpr h
  exact (List.sortedLE_mergeSort.pairwise.and hnodup).imp fun {a b} h => lt_of_le_of_ne h.1 h.2

section

variable {w : World} (hnamed : w.files.wellNamed = true) {directoriesOnly : Bool}

theorem specials_of_isLevel {pattern : Pattern} (h : pattern.isLevel = true) (hname : pattern.literal? = none) :
    Glob.specials pattern = [] := by
  rw [Pattern.isLevel, hname] at h
  exact List.isEmpty_iff.mp h

theorem named_of_isLevel {pattern : Pattern} (h : pattern.isLevel = true) {name : List Char}
    (hname : pattern.literal? = some name) : Named (String.ofList name) := by
  rw [Pattern.isLevel, hname] at h
  exact isName_iff.mp h

theorem Deep.cons {pattern : Pattern} {patterns : List Pattern} (hrec : pattern.isRecursive = false) {name : String}
    (hn : Named name) {names : List String} (h : Deep patterns names) : Deep (pattern :: patterns) (name :: names) where
  named := List.forall_mem_cons.mpr ⟨hn, h.named⟩
  least := by
    have hle := h.least
    rw [Glob.depth, List.countP_cons_of_pos (by simp [hrec])]
    exact Nat.succ_le_succ hle
  most hall := by rw [List.length_cons, List.length_cons, h.most (List.forall_mem_cons.mp hall).2]
  ne_nil _ := List.cons_ne_nil _ _

/-- Names behind two stars, or in a directory that they pass. -/
theorem Deep.recursive {pattern : Pattern} {patterns : List Pattern} (hrec : pattern.isRecursive = true) {name : String}
    (hn : Named name) {names : List String} (hnames : ∀ n ∈ names, Named n)
    (hleast : Glob.depth patterns ≤ names.length + 1) : Deep (pattern :: patterns) (name :: names) where
  named := List.forall_mem_cons.mpr ⟨hn, hnames⟩
  least := by
    rw [Glob.depth, List.countP_cons_of_neg (by simp [hrec])]
    exact hleast
  most hall := by
    rw [(List.forall_mem_cons.mp hall).1] at hrec
    cases hrec
  ne_nil _ := List.cons_ne_nil _ _

/-- Names behind two stars, at an entry that comes directly behind them. -/
structure Near (patterns : List Pattern) (names : List String) : Prop where
  named : ∀ name ∈ names, Named name
  least : Glob.depth patterns ≤ names.length + 1
  most : (∀ q ∈ patterns, q.isRecursive = false) → names = [] ∨ names.length < Glob.depth patterns
  last : patterns.length ≤ 1 → names = []

/-- What is found at an entry itself. -/
theorem spelled_seesAt {bound : Nat} {s : Glob.Spot} {patterns : List Pattern} (name : String)
    (h : ∀ rest, rest.Sublist patterns → Spelled s.path (Deep rest) (∀ q ∈ Glob.behind rest, q.isRecursive = false)
      ((Glob.behind rest).length ≤ 1) (w.finds directoriesOnly bound rest s))
    (hhead : ∀ next ∈ patterns.head?, next.isRecursive = false) :
    Spelled s.path (Near patterns) (∀ q ∈ patterns, q.isRecursive = false) (patterns.length ≤ 1)
      (w.seesAt directoriesOnly bound s patterns name) := by
  cases patterns with
  | nil =>
    rw [World.seesAt]
    exact .arrived ⟨List.forall_mem_nil _, Nat.zero_le _, fun _ => Or.inl rfl, fun _ => rfl⟩
  | cons next rest =>
    have hdepth : Glob.depth (next :: rest) = Glob.depth rest + 1 :=
      List.countP_cons_of_pos (by simp [hhead next rfl])
    have hnone (hlen : (next :: rest).length ≤ 1) : rest = [] :=
      List.length_eq_zero_iff.mp (Nat.le_zero.mp (Nat.le_of_succ_le_succ hlen))
    rw [World.seesAt]
    split
    · refine (h rest (List.sublist_cons_self next rest)).mono (fun names hd => ?_) (fun hall => ?_) (fun hlen => ?_)
      · refine ⟨hd.named, hdepth ▸ Nat.succ_le_succ hd.least, fun hall => Or.inr ?_, fun hlen => ?_⟩
        · have hrest := (List.forall_mem_cons.mp hall).2
          rw [hdepth, hd.most hrest, Glob.depth_eq_length hrest]
          exact Nat.lt_succ_self _
        · obtain rfl := hnone hlen
          exact List.length_eq_zero_iff.mp (hd.most (List.forall_mem_nil _))
      · rw [Glob.behind_eq_nil (List.forall_mem_cons.mp hall).2]
        exact List.forall_mem_nil _
      · obtain rfl := hnone hlen
        exact Nat.zero_le _
    · exact .none

/-- What is found behind two stars at an entry, and below it. There are fewer names to the first than to the second. -/
theorem Spelled.recursive {pattern : Pattern} {patterns : List Pattern} (hrec : pattern.isRecursive = true) {name : String}
    (hn : Named name) {p : Path} {found found' : Glob.Found}
    (h : Spelled p (Near (Glob.dropRecursive patterns)) (∀ q ∈ Glob.dropRecursive patterns, q.isRecursive = false)
      ((Glob.dropRecursive patterns).length ≤ 1) found)
    (h' : Spelled p (Deep ([.directories] :: Glob.dropRecursive patterns))
      (∀ q ∈ Glob.dropRecursive patterns, q.isRecursive = false) ((Glob.dropRecursive patterns).length ≤ 1) found') :
    Spelled p (fun rest => Deep (pattern :: patterns) (name :: rest))
      (∀ q ∈ Glob.dropRecursive patterns, q.isRecursive = false) ((Glob.dropRecursive patterns).length ≤ 1)
      (found ++ found') := by
  have hdepth := Glob.depth_dropRecursive patterns
  have hstars : Glob.depth ([.directories] :: Glob.dropRecursive patterns) = Glob.depth (Glob.dropRecursive patterns) := rfl
  have hne {names : List String} (h : Deep ([.directories] :: Glob.dropRecursive patterns) names) : names ≠ [] :=
    h.ne_nil (List.cons_ne_nil _ _)
  refine (h.append h' (fun hall names names' hnear hd => ?_) fun hlen names names' hnear hd => ?_).mono
    (fun names hnames => ?_) id id
  · rintro rfl
    rcases hnear.most hall with hnil | hlt
    · exact hne hd hnil
    · exact absurd (hstars ▸ hd.least) (Nat.not_le.mpr hlt)
  · rw [hnear.last hlen]
    obtain ⟨first, rest, rfl⟩ := List.exists_cons_of_ne_nil (hne hd)
    exact List.nil_lt_cons first rest
  · rcases hnames with hnear | hd
    · exact .recursive hrec hn hnear.named (hdepth ▸ hnear.least)
    · exact .recursive hrec hn hd.named (Nat.le_succ_of_le (hdepth ▸ hstars ▸ hd.least))

/-- What is found at an entry, and below it where two stars pass it. -/
theorem spelled_visit {bound : Nat} {pattern : Pattern} {patterns : List Pattern} {s : Glob.Spot} {name : String}
    (hn : Named name) (hlevel : ∀ q ∈ patterns, q.isLevel = true)
    (ih : ∀ {left : List Pattern}, (∀ q ∈ left, q.isLevel = true) → Spelled s.path (Deep left)
      (∀ q ∈ Glob.behind left, q.isRecursive = false) ((Glob.behind left).length ≤ 1)
      (w.finds directoriesOnly bound left s)) :
    Spelled s.path (fun rest => Deep (pattern :: patterns) (name :: rest))
      (∀ q ∈ Glob.behind (pattern :: patterns), q.isRecursive = false) ((Glob.behind (pattern :: patterns)).length ≤ 1)
      (w.sees (Glob.visit directoriesOnly (bound + 1) (pattern :: patterns) s name)) := by
  cases hrec : pattern.isRecursive with
  | false =>
    rw [visit_matched w _ _ _ _ _ hrec, Glob.behind_cons hrec]
    split
    · exact (ih hlevel).mono (fun names h => h.cons hrec hn) id id
    · exact .none
  | true =>
    have hdrop : ∀ q ∈ Glob.dropRecursive patterns, q.isLevel = true := fun q hq =>
      hlevel q ((List.dropWhile_sublist _).subset hq)
    have hbehind : Glob.behind ([.directories] :: Glob.dropRecursive patterns) = Glob.dropRecursive patterns := by
      rw [Glob.behind_recursive rfl]
      exact List.dropWhile_idempotent _ _
    have hstars : Pattern.isLevel [.directories] = true := rfl
    have hbelow := ih (List.forall_mem_cons.mpr ⟨hstars, hdrop⟩)
    rw [hbehind] at hbelow
    rw [visit_recursive w _ _ _ _ _ hrec, Glob.behind_recursive hrec]
    refine .recursive hrec hn (spelled_seesAt name (fun rest hr => ?_) fun next hnext => ?_) ?_
    · exact ih fun q hq => hdrop q (hr.subset hq)
    · exact Glob.isRecursive_of_dropRecursive hnext
    · split
      · exact hbelow
      · exact .none

include hnamed

/-- **What is found where only names are left to spell.** By induction on the bound, as the search goes. -/
theorem spelled_finds {bound : Nat} {patterns : List Pattern} (hlevel : ∀ q ∈ patterns, q.isLevel = true) (s : Glob.Spot) :
    Spelled s.path (Deep patterns) (∀ q ∈ Glob.behind patterns, q.isRecursive = false) ((Glob.behind patterns).length ≤ 1)
      (w.finds directoriesOnly bound patterns s) := by
  induction bound using Nat.strongRecOn generalizing patterns s with | ind bound ih => ?_
  rcases patterns with _ | ⟨pattern, patterns⟩
  · rw [finds_nil]
    exact .arrived ⟨List.forall_mem_nil _, Nat.le_refl _, fun _ => rfl, fun h => absurd rfl h⟩
  rw [List.forall_mem_cons] at hlevel
  rcases bound with _ | bound
  · rw [finds_zero w _ (List.cons_ne_nil _ _)]
    exact .none
  cases hname : pattern.literal? with
  | some name =>
    have hrec : pattern.isRecursive = false := by
      by_contra hrec
      rw [Pattern.literal?_of_isRecursive (by simpa using hrec)] at hname
      cases hname
    rw [finds_literal w _ _ _ _ _ hname, Glob.behind_cons hrec]
    split
    · refine .cons ((ih bound (Nat.lt_succ_self bound) hlevel.2 (w.spot _)).mono (fun names h => ?_) id id)
      exact h.cons hrec (named_of_isLevel hlevel.1 hname)
    · exact .none
  | none =>
    cases hdir : s.isDir with
    | false =>
      rw [finds_file w _ _ _ _ _ hname hdir]
      exact .none
    | true =>
      cases hentries : w.files.entries w.current s.path with
      | error e =>
        rw [finds_unreadable w _ _ _ _ _ hname hdir hentries]
        exact .error _
      | ok entries =>
        obtain ⟨es, hes⟩ := find_of_entries w hentries
        obtain ⟨hnodup, hnames⟩ := names_of_find hnamed hes
        rw [finds_names w _ _ _ _ _ hname hdir hes, specials_of_isLevel hlevel.1 hname, List.flatMap_nil, List.nil_append]
        refine .flatMap (pairwise_mergeSort hnodup) fun name hmem => ?_
        rw [List.mem_mergeSort] at hmem
        rcases bound with _ | bound
        · rw [Glob.visit]
          exact .none
        · exact spelled_visit (hnames name hmem) hlevel.2 fun hleft => ih bound (by omega) hleft _

end

end SchemaWeave
