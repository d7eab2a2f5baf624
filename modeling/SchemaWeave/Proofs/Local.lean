import SchemaWeave.Proofs.Files.Order
import SchemaWeave.Proofs.Loaded

/-!
# Which local files are loaded

Loading by a pattern gives the text of every file that the pattern stands for and of no other (`loadLocal_files`). With two
stars in one place at most, no file is loaded twice, and with no more than one piece behind them, files are loaded in the
order of their paths. With two stars in two places, a file is loaded once for each way to reach it (`loadLocal_twice`).
-/

namespace SchemaWeave

open Files FileTree

/-! ## The pieces of a pattern -/

namespace Files.Pattern

theorem ne_directories_of_readRange {cs rest : List Char} {token : PatternToken} {length : Nat}
    (h : readRange cs = some (token, length, rest)) : token ≠ .directories := by
  rw [readRange.eq_def] at h
  repeat' split at h
  all_goals cases h <;> exact PatternToken.noConfusion

theorem parseFrom_nil (bound position : Nat) (before : Option Char) (done : Pattern) :
    parseFrom bound position before done [] = .ok done.reverse := by
  cases bound <;> rfl

/-- Two stars in a text without slashes are all of it. -/
theorem directories_of_parseFrom {bound position : Nat} {before : Option Char} {done p : Pattern} {cs : List Char}
    (h : parseFrom bound position before done cs = .ok p) (hcs : '/' ∉ cs) (hdone : .directories ∉ done)
    (hslash : before ≠ some '/') (hbefore : before = none → done = []) (hp : .directories ∈ p) : p = [.directories] := by
  have hcons {token : PatternToken} {done : Pattern} (htoken : token ≠ .directories) (hdone : .directories ∉ done) :
      .directories ∉ token :: done := by
    rw [List.mem_cons, not_or]
    exact ⟨htoken.symm, hdone⟩
  have hread {c : Char} {done : Pattern} (hc : some c = none) : done = [] := absurd hc (Option.some_ne_none c)
  fun_induction parseFrom bound position before done cs
  case case1 | case2 =>
    cases h
    exact absurd (List.mem_reverse.mp hp) hdone
  case case4 | case8 | case9 | case10 => cases h
  case case3 ih =>
    rw [List.mem_cons, not_or] at hcs
    exact ih h hcs.2 (hcons PatternToken.noConfusion hdone) (by simp) hread
  case case5 ih =>
    refine ih h (fun hc => hcs ?_) (hcons PatternToken.noConfusion hdone) (by simp) hread
    exact List.mem_cons_of_mem _ ((List.dropWhile_sublist _).subset hc)
  case case6 hfront _ _ _ =>
    obtain rfl := hbefore (hfront.resolve_right hslash)
    rw [parseFrom_nil] at h
    exact (Except.ok.inj h).symm
  case case7 rest hdrop _ ih =>
    have hmem := (List.dropWhile_sublist _).subset (hdrop ▸ List.mem_cons_self)
    exact absurd (List.mem_cons_of_mem _ hmem) hcs
  case case11 hrange _ _ ih =>
    refine ih h (fun hc => hcs ?_) (hcons (ne_directories_of_readRange hrange) hdone) (by simp) hread
    exact List.mem_cons_of_mem _ ((mem_of_readRange hrange).2 _ hc)
  case case12 ih =>
    rw [List.mem_cons, not_or] at hcs
    exact ih h hcs.2 (hcons PatternToken.noConfusion hdone) (by simpa using Ne.symm hcs.1) hread

/-- A piece of a text is read as a pattern for a piece. -/
theorem isPiece_of_parse {text : List Char} {p : Pattern} (h : parse text = .ok p) (htext : '/' ∉ text) : p.IsPiece where
  plain := plain_of_parse h htext
  alone hrec := directories_of_parseFrom h htext List.not_mem_nil (by simp) (fun _ => rfl) (List.contains_iff_mem.mp hrec)

end Files.Pattern

namespace Files.Glob

theorem isPiece_of_parsed {pieces : List (List Char)} {patterns : List Pattern}
    (h : List.Forall₂ (fun piece pattern => Pattern.parse piece = .ok pattern) pieces patterns)
    (hpieces : ∀ piece ∈ pieces, '/' ∉ piece) : ∀ pattern ∈ patterns, pattern.IsPiece := by
  induction h with
  | nil => exact List.forall_mem_nil _
  | cons hfirst _ ih =>
    rw [List.forall_mem_cons] at hpieces ⊢
    exact ⟨Pattern.isPiece_of_parse hfirst hpieces.1, ih hpieces.2⟩

/-- The patterns of a search are for single pieces. -/
theorem Search.isPiece {text : List Char} {search : Search} (h : Search.ofText text = .ok search) :
    ∀ pattern ∈ search.patterns, pattern.IsPiece := by
  obtain ⟨_, -, h⟩ := Json.bind_eq_ok.mp h
  obtain ⟨patterns, hpatterns, h⟩ := Json.bind_eq_ok.mp h
  have hpieces := isPiece_of_parsed (Json.mapM_eq_ok.mp hpatterns) fun _ => not_mem_of_mem_patternPieces
  have hroot : ∀ b : Bool, ∀ pattern ∈ if b then [[]] else patterns, Pattern.IsPiece pattern := by
    intro b
    cases b with
    | false => exact hpieces
    | true => exact List.forall_mem_singleton.mpr ⟨List.not_mem_nil, fun h => nomatch h⟩
  cases h
  exact hroot _

/-- A search starts at the root or in the working directory. -/
theorem Search.start_eq {text : List Char} {search : Search} (h : Search.ofText text = .ok search) :
    search.start = "/" ∨ search.start = "." := by
  obtain ⟨_, -, h⟩ := Json.bind_eq_ok.mp h
  obtain ⟨patterns, -, h⟩ := Json.bind_eq_ok.mp h
  cases h
  dsimp only
  split
  · exact Or.inl rfl
  · exact Or.inr rfl

/-- Only directories count where a pattern ends with a slash. -/
theorem Search.directoriesOnly_eq {text : List Char} {search : Search} (h : Search.ofText text = .ok search) :
    search.directoriesOnly = (text.getLast? == some '/') := by
  obtain ⟨_, -, h⟩ := Json.bind_eq_ok.mp h
  obtain ⟨patterns, -, h⟩ := Json.bind_eq_ok.mp h
  cases h
  rfl

end Files.Glob

/-! ## Paths that are loaded -/

section

variable {w : World}

theorem room_le (p : Path) : room p ≤ Glob.deepest := by
  rw [room]
  split
  · exact Nat.le_refl _
  · exact Nat.sub_le _ _

/-- A path that a search goes on to is not empty. -/
theorem ne_empty_of_there {p : Path} (hp : p ≠ "") {name : String} {isDir : Bool}
    (h : (Glob.isSpecial name && isDir ||
      !Glob.isSpecial name && w.sees (Host.pathExists (Glob.entryPath p name))) = true) : Glob.entryPath p name ≠ "" := by
  cases hspecial : Glob.isSpecial name with
  | false =>
    rw [hspecial, Bool.false_and, Bool.false_or, Bool.not_false, Bool.true_and] at h
    obtain ⟨t, ht⟩ := (sees_pathExists w).mp h
    exact (checkPath_eq_ok.mp (find_eq_ok.mp ht).1).2.1
  | true =>
    have hname : name = "." ∨ name = ".." := by simpa [Glob.isSpecial] using hspecial
    have hne : name ≠ "" ∧ '/' ∉ name.toList := by rcases hname with rfl | rfl <;> decide
    rw [Glob.entryPath]
    split
    · exact hne.1
    · exact Glob.join_ne_empty hp hne.2

/-- What is loaded is named by its path. -/
theorem sources_of_forall₂ {paths : List Path} {fragments : List Fragment}
    (h : List.Forall₂ (fun p f => w.sees (loadFile p) = .ok f) paths fragments) :
    fragments.map (·.source) = paths ∧ ∀ f ∈ fragments, w.files.read w.current f.source = .ok f.sdl.toUTF8 := by
  induction h with
  | nil => exact ⟨rfl, List.forall_mem_nil _⟩
  | @cons p f paths fragments hf _ ih =>
    obtain ⟨hsource, htext, -⟩ := (sees_loadFile w).mp hf
    refine ⟨by rw [List.map_cons, hsource, ih.1], List.forall_mem_cons.mpr ⟨?_, ih.2⟩⟩
    rw [hsource]
    exact (sees_readText w).mp htext

/-- What is loaded was found by a search: the files among the paths, in their order. -/
theorem foundBy_of_loadLocal {base : Path} {pattern : String} {fragments : List Fragment}
    (h : w.sees (loadLocal base pattern) = .ok fragments) : fragments ≠ [] ∧
      ∃ (search : Glob.Search) (paths : List Path), Glob.Search.ofText (patternBelow base pattern).toList = .ok search ∧
        w.foundBy search = paths.map .ok ∧
        List.Forall₂ (fun p f => w.sees (loadFile p) = .ok f) (paths.filter fun p => !w.sees (Host.isDir p)) fragments := by
  obtain ⟨found, hpaths, hload, hne⟩ := (sees_loadLocal w).mp h
  obtain ⟨paths, rfl, hall⟩ := forall₂_of_loadPaths w hload
  cases hsearch : Glob.Search.ofText (patternBelow base pattern).toList with
  | error e =>
    rw [Glob.paths, hsearch] at hpaths
    cases hpaths
  | ok search =>
    refine ⟨hne, search, paths, rfl, ?_, hall⟩
    by_cases hnone : search.patterns = []
    · rw [Glob.paths, hsearch] at hpaths
      dsimp only at hpaths
      rw [if_pos (by rw [hnone]; rfl)] at hpaths
      obtain rfl := List.map_eq_nil_iff.mp (Except.ok.inj hpaths).symm
      cases hall
      exact absurd rfl hne
    · exact Except.ok.inj ((sees_paths w hsearch hnone).symm.trans hpaths)

/-- Each file that is loaded was found. -/
theorem found_of_loadLocal {base : Path} {pattern : String} {fragments : List Fragment}
    (h : w.sees (loadLocal base pattern) = .ok fragments) {search : Glob.Search}
    (hsearch : Glob.Search.ofText (patternBelow base pattern).toList = .ok search) {f : Fragment} (hf : f ∈ fragments) :
    .ok f.source ∈ w.foundBy search ∧ w.files.find w.current f.source = .ok (.file f.sdl.toUTF8) := by
  obtain ⟨-, search', paths, hsearch', hfound, hall⟩ := foundBy_of_loadLocal h
  cases hsearch.symm.trans hsearch'
  obtain ⟨hsources, hread⟩ := sources_of_forall₂ hall
  have hmem : f.source ∈ paths.filter fun p => !w.sees (Host.isDir p) := hsources ▸ List.mem_map_of_mem hf
  rw [hfound]
  exact ⟨List.mem_map_of_mem (List.mem_filter.mp hmem).1, read_eq_ok.mp (hread f hf)⟩

/-- Pieces without wildcards are followed, or lead nowhere. -/
theorem finds_front {directoriesOnly : Bool} {bound : Nat} {patterns : List Pattern} {s : Glob.Spot} (hs : s.path ≠ "") :
    w.finds directoriesOnly bound patterns s = [] ∨ ∃ bound' s', s'.path ≠ "" ∧ w.finds directoriesOnly bound patterns s =
      w.finds directoriesOnly bound' (patterns.dropWhile fun q => q.literal?.isSome) s' := by
  induction patterns generalizing bound s with
  | nil => exact Or.inr ⟨bound, s, hs, rfl⟩
  | cons pattern patterns ih =>
    cases hname : pattern.literal? with
    | none =>
      rw [List.dropWhile_cons_of_neg (by simp [hname])]
      exact Or.inr ⟨bound, s, hs, rfl⟩
    | some name =>
      rw [List.dropWhile_cons_of_pos (by simp [hname])]
      rcases bound with _ | bound
      · exact Or.inl (finds_zero w _ (List.cons_ne_nil _ _) s)
      rw [finds_literal w _ _ _ _ _ hname]
      split
      · next hthere => exact ih (ne_empty_of_there hs hthere)
      · exact Or.inl rfl

theorem behind_front (patterns : List Pattern) :
    Glob.behind (patterns.dropWhile fun q => q.literal?.isSome) = Glob.behind patterns := by
  induction patterns with
  | nil => rfl
  | cons pattern patterns ih =>
    cases hname : pattern.literal? with
    | none => rw [List.dropWhile_cons_of_neg (by simp [hname])]
    | some name =>
      have hrec : pattern.isRecursive = false := by
        by_contra hrec
        rw [Pattern.literal?_of_isRecursive (by simpa using hrec)] at hname
        cases hname
      rw [List.dropWhile_cons_of_pos (by simp [hname]), ih, Glob.behind_cons hrec]

end

/-! ## Order -/

/-- What stands behind the same components is compared by what stands there. -/
theorem append_lt_append_iff (front a b : List String) : front ++ a < front ++ b ↔ a < b := by
  induction front with
  | nil => exact Iff.rfl
  | cons first front ih =>
    rw [List.cons_append, List.cons_append, List.cons_lt_cons_iff, ih]
    simp

namespace Files.Glob

/-- Whether only names stand for the pieces of a search from its first wildcard on. -/
def Search.isLevel (s : Search) : Bool := (s.patterns.dropWhile fun q => q.literal?.isSome).all Pattern.isLevel

end Files.Glob

section

variable {w : World} (hnamed : w.files.wellNamed = true)

/-- Names that are in order spell paths whose components are. -/
theorem components_lt {patterns : List Pattern} {p : Path} (hp : p ≠ "") {names names' : List String}
    (h : Deep patterns names) (h' : Deep patterns names') (hlt : names < names') :
    (Glob.spellNames p names).components < (Glob.spellNames p names').components := by
  by_cases hne : patterns = []
  · subst hne
    obtain rfl := List.length_eq_zero_iff.mp (h'.most (List.forall_mem_nil _))
    exact absurd hlt (List.not_lt_nil _)
  · rw [Glob.components_spellNames hp h.named (h.ne_nil hne), Glob.components_spellNames hp h'.named (h'.ne_nil hne),
      append_lt_append_iff]
    exact hlt

include hnamed

/-- The paths that are found where only names are left to spell. -/
theorem exists_spelled {search : Glob.Search} (hlevel : search.isLevel = true) (hstart : search.start ≠ "")
    {directoriesOnly : Bool} {bound : Nat} {paths : List Path}
    (h : w.finds directoriesOnly bound search.patterns (w.spot search.start) = paths.map .ok) :
    ((∀ q ∈ Glob.behind search.patterns, q.isRecursive = false) → paths.Pairwise fun p q =>
      ∀ r r', leads w.files w.current p = .ok r → leads w.files w.current q = .ok r' → r ≠ r') ∧
    ((Glob.behind search.patterns).length ≤ 1 → paths.Pairwise fun p q => Path.components p < Path.components q) := by
  rcases finds_front (s := w.spot search.start) hstart with hnone | ⟨bound', s', hs', hfront⟩
  · rw [hnone] at h
    obtain rfl := List.map_eq_nil_iff.mp h.symm
    exact ⟨fun _ => .nil, fun _ => .nil⟩
  · have hbehind : Spelled s'.path (Deep (search.patterns.dropWhile fun q => q.literal?.isSome)) _ _
        (w.finds directoriesOnly bound' _ s') := spelled_finds hnamed (List.all_eq_true.mp hlevel) s'
    rw [behind_front, ← hfront, h] at hbehind
    obtain ⟨spelled, hspelled, hdeep, hnodup, hsorted⟩ := hbehind
    have hpaths : paths = spelled.map (Glob.spellNames s'.path) := by
      rw [← hspelled, Glob.Found.paths, List.filterMap_map]
      exact List.filterMap_some.symm
    subst hpaths
    refine ⟨fun hones => ?_, fun hlen => ?_⟩
    · refine List.pairwise_map.mpr ((hnodup hones).imp_of_mem fun {names names'} hn hn' hne r r' hr hr' => ?_)
      exact Glob.locate_spellNames_ne (hdeep names hn).named (hdeep names' hn').named hne hr hr'
    · refine List.pairwise_map.mpr ((hsorted hlen).imp_of_mem fun {names names'} hn hn' hlt => ?_)
      exact components_lt hs' (hdeep names hn) (hdeep names' hn') hlt

/-- **What is loaded by a pattern.** Each fragment has the text of a file that the pattern stands for, and each such file is
loaded, where the steps to it can be taken one by one. If only names stand for the pieces from the first wildcard on, and two
stars come in one place at most, no file is loaded twice; and if no more than one piece comes behind the two stars, the
fragments are in the order of the components of their paths. -/
theorem loadLocal_files {base : Path} {pattern : String} {fragments : List Fragment}
    (h : w.sees (loadLocal base pattern) = .ok fragments) :
    ∃ search, Glob.Search.ofText (patternBelow base pattern).toList = .ok search ∧
      (∀ f ∈ fragments, w.files.read w.current f.source = .ok f.sdl.toUTF8 ∧
        ∃ steps, Stands search.patterns steps ∧ f.source = Glob.spell search.start steps) ∧
      (∀ steps bytes, Stands search.patterns steps → w.Passes search.start steps →
        w.files.find w.current (Glob.spell search.start steps) = .ok (.file bytes) →
        ∃ f ∈ fragments, f.source = Glob.spell search.start steps) ∧
      (search.isLevel = true → (∀ q ∈ Glob.behind search.patterns, q.isRecursive = false) →
        fragments.Pairwise fun f g => w.files.locate w.current f.source ≠ w.files.locate w.current g.source) ∧
      (search.isLevel = true → (Glob.behind search.patterns).length ≤ 1 →
        fragments.Pairwise fun f g => Path.components f.source < Path.components g.source) := by
  obtain ⟨hne, search, paths, hsearch, hfinds, hall⟩ := foundBy_of_loadLocal h
  rw [World.foundBy, Glob.Search.bound] at hfinds
  obtain ⟨hsources, hread⟩ := sources_of_forall₂ hall
  have hstart : search.start ≠ "" := by
    rcases Glob.Search.start_eq hsearch with hs | hs <;> rw [hs] <;> decide
  have hstands : ∀ f ∈ fragments,
      search.directoriesOnly = false ∧ ∃ steps, Stands search.patterns steps ∧ f.source = Glob.spell search.start steps := by
    intro f hf
    obtain ⟨hfound, hfile⟩ := found_of_loadLocal h hsearch hf
    exact stands_of_finds hnamed (known_spot _) hfound hfile
  refine ⟨search, hsearch, fun f hf => ⟨hread f hf, ?_⟩, fun steps bytes hsteps hpass hfile => ?_, fun hlevel hones => ?_,
    fun hlevel hlen => ?_⟩
  · exact (hstands f hf).2
  · obtain ⟨f, hf⟩ := List.exists_mem_of_ne_nil _ hne
    have hfiles := (hstands f hf).1
    have hbound : 2 * steps.length ≤ 2 * (Glob.deepest + search.patterns.length) :=
      Nat.mul_le_mul_left 2 ((hsteps.length_le (Glob.Search.isPiece hsearch) hpass).trans
        (Nat.add_le_add_right (room_le search.start) _))
    have hfound : .ok (Glob.spell search.start steps) ∈ w.finds false _ search.patterns (w.spot search.start) :=
      finds_of_stands hsteps (Glob.Search.isPiece hsearch) hbound (known_spot _) hpass
    rw [← hfiles, hfinds] at hfound
    generalize Glob.spell search.start steps = p at hfile hfound ⊢
    obtain ⟨p', hp, hspell⟩ := List.mem_map.mp hfound
    obtain rfl : p' = p := Except.ok.inj hspell
    have hisDir : w.sees (Host.isDir p') = false := by
      refine Bool.eq_false_iff.mpr fun hdir => ?_
      obtain ⟨es, hes⟩ := (sees_isDir w).mp hdir
      cases hfile.symm.trans hes
    have hmem : p' ∈ fragments.map (·.source) := by
      rw [hsources]
      exact List.mem_filter.mpr ⟨hp, by rw [hisDir]; rfl⟩
    exact List.mem_map.mp hmem
  · have hpairs := ((exists_spelled hnamed hlevel hstart hfinds).1 hones).filter fun p => !w.sees (Host.isDir p)
    rw [← hsources, List.pairwise_map] at hpairs
    refine hpairs.imp_of_mem fun {f g} hf hg hplaces heq => ?_
    obtain ⟨hcheck, r, hr, -⟩ := find_eq_ok.mp (read_eq_ok.mp (hread f hf))
    have hlocate := locate_eq_ok.mpr ⟨hcheck, hr⟩
    exact hplaces r r hr (locate_eq_ok.mp (heq ▸ hlocate)).2 rfl
  · have hpairs := ((exists_spelled hnamed hlevel hstart hfinds).2 hlen).filter fun p => !w.sees (Host.isDir p)
    rwa [← hsources, List.pairwise_map] at hpairs

end

/-- A schema file two directories below. -/
def twoBelow (outer inner : String) : World where
  files := .dir [(outer, .dir [(inner, .dir [("x.graphql", .file "type Query \x7b a: Int \x7d".toUTF8)])])]
  network _ := .error "no network"

theorem loadLocal_files_twoBelow : (twoBelow "p" "q").files.wellNamed = true ∧
    ∃ fragments, (twoBelow "p" "q").sees (loadLocal "p" "**/*.graphql") = .ok fragments ∧
      fragments.map (·.source) = ["p/q/x.graphql"] ∧
      ∃ search, Glob.Search.ofText (patternBelow "p" "**/*.graphql").toList = .ok search ∧ search.isLevel = true ∧
        (Glob.behind search.patterns).length ≤ 1 ∧
        fragments.Pairwise fun f g => Path.components f.source < Path.components g.source := by
  have hfacts : (twoBelow "p" "q").files.wellNamed = true ∧
      ((twoBelow "p" "q").sees (loadLocal "p" "**/*.graphql")).toOption.map (List.map (·.source)) =
        some ["p/q/x.graphql"] ∧
      ((Glob.Search.ofText (patternBelow "p" "**/*.graphql").toList).toOption.all fun s =>
        s.isLevel && decide ((Glob.behind s.patterns).length ≤ 1)) = true := by
    decide +kernel
  obtain ⟨hnamed, hloaded, hlevel⟩ := hfacts
  obtain ⟨fragments, hfragments, hsources⟩ := Option.map_eq_some_iff.mp hloaded
  have hok := eq_ok_of_toOption hfragments
  obtain ⟨search, hsearch, -, -, -, hsorted⟩ := loadLocal_files hnamed hok
  rw [hsearch] at hlevel
  obtain ⟨hlevel, hlen⟩ := Bool.and_eq_true_iff.mp hlevel
  have hlen := of_decide_eq_true hlen
  exact ⟨hnamed, fragments, hok, hsources, search, hsearch, hlevel, hlen, hsorted hlevel hlen⟩

/-- Two stars in two places reach a file in two ways, and load it twice. -/
theorem loadLocal_twice : (twoBelow "a" "a").files.wellNamed = true ∧
    ∃ f, (twoBelow "a" "a").sees (loadLocal "." "**/a/**/x.graphql") = .ok [f, f] := by
  have hfacts : (twoBelow "a" "a").files.wellNamed = true ∧
      ((twoBelow "a" "a").sees (loadLocal "." "**/a/**/x.graphql")).toOption =
        some [⟨"a/a/x.graphql", "type Query \x7b a: Int \x7d"⟩, ⟨"a/a/x.graphql", "type Query \x7b a: Int \x7d"⟩] := by
    decide +kernel
  exact ⟨hfacts.1, _, eq_ok_of_toOption hfacts.2⟩

end SchemaWeave
