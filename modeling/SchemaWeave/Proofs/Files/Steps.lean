import SchemaWeave.Proofs.Files.Search

/-!
# Paths that steps spell

A search spells the paths it finds step by step (`spell`): it looks a name up in a directory, or goes on by dots that a
wildcard stands for. A path leads where its steps lead (`leads_spell`). In a tree whose entries have proper names
(`FileTree.wellNamed`), names spell different components (`components_spell`) and lead to different places
(`locate_spell`).
-/

namespace SchemaWeave.Files

/-! ## Names -/

namespace FileTree

/-- Whether a text can be the name of an entry. -/
def isName (name : String) : Bool :=
  name != "" && name != "." && name != ".." && !name.toList.contains '/' && !name.toList.contains '\x00' &&
    decide (name.utf8ByteSize ≤ longestName)

mutual

/-- Whether the entries of all directories have names, and no two entries of a directory the same one. -/
def wellNamed : FileTree → Bool
  | file _ => true
  | dir entries => wellNamedEntries entries

def wellNamedEntries : List (String × FileTree) → Bool
  | [] => true
  | (name, t) :: entries =>
    isName name && !(entries.map (·.1)).contains name && t.wellNamed && wellNamedEntries entries

end

/-- What it takes to be a name. -/
structure Named (name : String) : Prop where
  ne_empty : name ≠ ""
  ne_dot : name ≠ "."
  ne_dots : name ≠ ".."
  slash : '/' ∉ name.toList
  nul : '\x00' ∉ name.toList
  short : name.utf8ByteSize ≤ longestName

theorem isName_iff {name : String} : isName name = true ↔ Named name := by
  simp only [isName, Bool.and_eq_true, bne_iff_ne, Bool.not_eq_true', decide_eq_true_eq, List.contains_eq_mem,
    decide_eq_false_iff_not]
  constructor
  · rintro ⟨⟨⟨⟨⟨h0, h1⟩, h2⟩, h3⟩, h4⟩, h5⟩
    exact ⟨h0, h1, h2, h3, h4, h5⟩
  · rintro ⟨h0, h1, h2, h3, h4, h5⟩
    exact ⟨⟨⟨⟨⟨h0, h1⟩, h2⟩, h3⟩, h4⟩, h5⟩

theorem wellNamedEntries_iff {entries : List (String × FileTree)} : wellNamedEntries entries = true ↔
    (entries.map (·.1)).Nodup ∧ ∀ e ∈ entries, Named e.1 ∧ e.2.wellNamed = true := by
  induction entries with
  | nil => simp [wellNamedEntries]
  | cons e entries ih =>
    obtain ⟨name, t⟩ := e
    rw [wellNamedEntries, Bool.and_eq_true, Bool.and_eq_true, Bool.and_eq_true, ih, isName_iff, Bool.not_eq_true',
      List.contains_eq_mem, decide_eq_false_iff_not, List.map_cons, List.nodup_cons, List.forall_mem_cons]
    tauto

/-- What is at a place of a tree with proper names has proper names. -/
theorem wellNamed_get? {root t : FileTree} (h : root.wellNamed = true) {place : Place} (ht : root.get? place = some t) :
    t.wellNamed = true := by
  induction place generalizing root with
  | nil =>
    cases ht
    exact h
  | cons name place ih =>
    cases root with
    | file => cases ht
    | dir entries =>
      obtain ⟨u, hu, hplace⟩ := Option.bind_eq_some_iff.mp ht
      obtain ⟨before, after, rfl, -⟩ := List.lookup_eq_some_iff.mp hu
      have hentry := (wellNamedEntries_iff.mp h).2 (name, u) (List.mem_append_right before List.mem_cons_self)
      exact ih hentry.2 hplace

/-- The names of a directory that a path leads to. -/
theorem names_of_find {root : FileTree} (h : root.wellNamed = true) {current : Place} {p : Path}
    {entries : List (String × FileTree)} (hp : find root current p = .ok (dir entries)) :
    (entries.map (·.1)).Nodup ∧ ∀ name ∈ entries.map (·.1), Named name := by
  obtain ⟨-, place, -, hplace⟩ := find_eq_ok.mp hp
  obtain ⟨hnodup, hnamed⟩ := wellNamedEntries_iff.mp (wellNamed_get? h hplace)
  refine ⟨hnodup, fun name hname => ?_⟩
  obtain ⟨e, he, rfl⟩ := List.mem_map.mp hname
  exact (hnamed e he).1

theorem isSome_lookup_iff {name : String} {entries : List (String × FileTree)} :
    (entries.lookup name).isSome = true ↔ name ∈ entries.map (·.1) := by
  rw [List.lookup_isSome_iff, List.mem_map]
  simp only [beq_iff_eq]
  exact exists_congr fun e => and_congr_right fun _ => eq_comm

theorem follow_of_named {root : FileTree} {name : String} (h : Named name) {place r : Place} :
    follow root place name = .ok r ↔
      ∃ entries, root.get? place = some (dir entries) ∧ name ∈ entries.map (·.1) ∧ r = place ++ [name] := by
  rw [follow_eq_ok]
  refine exists_congr fun entries => and_congr_right fun _ => ?_
  rw [if_neg (not_or.mpr ⟨h.ne_empty, h.ne_dot⟩), if_neg h.ne_dots, isSome_lookup_iff]
  exact and_iff_right h.short

/-- Names lead down. -/
theorem foldlM_follow_named {root : FileTree} {names : List String} (h : ∀ name ∈ names, Named name) {place r : Place}
    (hr : names.foldlM (follow root) place = .ok r) : r = place ++ names := by
  induction names generalizing place with
  | nil =>
    cases hr
    rw [List.append_nil]
  | cons name names ih =>
    rw [List.forall_mem_cons] at h
    rw [List.foldlM_cons] at hr
    obtain ⟨next, hnext, hr⟩ := Json.bind_eq_ok.mp hr
    obtain ⟨entries, -, -, rfl⟩ := (follow_of_named h.1).mp hnext
    rw [ih h.2 hr, List.append_assoc, List.singleton_append]

end FileTree

/-! ## Paths put together -/

namespace Path

/-- The components of a path: its head if it has one, and the pieces that are neither empty nor a dot. -/
def components (p : Path) : List String :=
  (if p.split.1 = [] then [] else [String.ofList p.split.1]) ++
    (p.split.2.filter fun piece => !isEmptyPiece piece).map String.ofList

/-- More text behind a path stands behind its pieces. -/
theorem split_append {p q : Path} {text : List Char} (hq : q.toList = p.toList ++ text) (hp : p ≠ "")
    (h : p.toList.getLast? = some '/' ∨ text.head? = some '/') : ∃ body, p.split = (p.split.1, splitSlashes body) ∧
      q.split = (p.split.1, splitSlashes (body ++ text)) ∧
      (body = [] ∨ body.getLast? = some '/' ∨ text.head? = some '/') := by
  have hne : p.toList ≠ [] := by simpa using hp
  rw [split, split, hq]
  generalize p.toList = chars at hne h
  rcases chars with _ | ⟨c, cs⟩
  · exact absurd rfl hne
  by_cases hroot : c = '/'
  · subst hroot
    refine ⟨cs, rfl, rfl, ?_⟩
    rcases cs with _ | ⟨d, cs⟩
    · exact Or.inl rfl
    · exact Or.inr h
  by_cases hdot : c = '.'
  · subst hdot
    rcases cs with _ | ⟨d, cs⟩
    · rcases h with h | h
      · cases h
      · rcases text with _ | ⟨e, text⟩
        · cases h
        · obtain rfl := Option.some.inj h
          exact ⟨[], rfl, rfl, Or.inl rfl⟩
    · by_cases hslash : d = '/'
      · subst hslash
        exact ⟨'/' :: cs, rfl, rfl, Or.inr h⟩
      · refine ⟨'.' :: d :: cs, ?_, ?_, Or.inr h⟩ <;> split <;> simp_all
  · refine ⟨c :: cs, ?_, ?_, Or.inr h⟩ <;> split <;> simp_all

section

variable {p : Path} (hp : p ≠ "") {name : String} (hname : '/' ∉ name.toList)

include hname

theorem toList_join : ∃ text, (join p name).toList = p.toList ++ text ∧
    (text = '/' :: name.toList ∨ text = name.toList ∧ (p = "" ∨ p.toList.getLast? = some '/')) := by
  rw [join, FileTree.isAbsolute_of_not_mem hname, if_neg Bool.false_ne_true]
  split
  · next h => exact ⟨name.toList, by simp, Or.inr ⟨rfl, by simpa using h⟩⟩
  · exact ⟨'/' :: name.toList, by simp, Or.inl rfl⟩

include hp

/-- A name behind a path is its last piece, behind all pieces that are not empty. -/
theorem split_join : ∃ init blanks, (∀ piece ∈ blanks, piece = []) ∧ p.split.2 = init ++ blanks ∧
    (join p name).split = (p.split.1, init ++ [name.toList]) := by
  obtain ⟨text, hq, htext⟩ := toList_join (p := p) hname
  have hslash : p.toList.getLast? = some '/' ∨ text.head? = some '/' := by
    rcases htext with rfl | ⟨-, hempty | hlast⟩
    · exact Or.inr rfl
    · exact absurd hempty hp
    · exact Or.inl hlast
  obtain ⟨body, hsplit, hjoin, hbody⟩ := split_append hq hp hslash
  rw [hsplit, hjoin]
  rcases htext with rfl | ⟨rfl, -⟩
  · refine ⟨splitSlashes body, [], List.forall_mem_nil _, by simp, ?_⟩
    rw [splitSlashes_append, splitSlashes_of_not_mem hname]
  · have hempty : body = [] ∨ body.getLast? = some '/' := by
      rcases hbody with h | h | h
      · exact Or.inl h
      · exact Or.inr h
      · exact absurd (List.mem_of_mem_head? h) hname
    rcases hempty with rfl | hlast
    · exact ⟨[], [[]], by simp, rfl, by rw [List.nil_append, splitSlashes_of_not_mem hname, List.nil_append]⟩
    · obtain ⟨init, rfl⟩ := List.getLast?_eq_some_iff.mp hlast
      refine ⟨splitSlashes init, [[]], by simp, splitSlashes_append init [], ?_⟩
      rw [List.append_assoc, List.singleton_append, splitSlashes_append, splitSlashes_of_not_mem hname]

/-- Only a name that is no component leaves the current directory current. -/
theorem isCurrent_join : (join p name).isCurrent = (p.isCurrent && isEmptyPiece name.toList) := by
  obtain ⟨init, blanks, hblanks, hpieces, hjoin⟩ := split_join hp hname
  have hall : blanks.all isEmptyPiece = true := List.all_eq_true.mpr fun piece h => by rw [hblanks piece h]; rfl
  rw [isCurrent, isCurrent, hjoin, hpieces]
  simp [hall, Bool.and_assoc]

theorem components_join (h : isEmptyPiece name.toList = false) : (join p name).components = p.components ++ [name] := by
  obtain ⟨init, blanks, hblanks, hpieces, hjoin⟩ := split_join hp hname
  have hnone : blanks.filter (fun piece => !isEmptyPiece piece) = [] :=
    List.filter_eq_nil_iff.mpr fun piece hpiece => by rw [hblanks piece hpiece]; decide
  rw [components, components, hjoin, hpieces]
  simp [hnone, h]

end

section

variable {name : String} (h : FileTree.Named name)

include h

theorem split_name : split name = ([], [name.toList]) := by
  have hdot : name.toList ≠ ['.'] := fun hd => h.ne_dot (String.toList_inj.mp hd)
  have hslash := h.slash
  rw [split, ← splitSlashes_of_not_mem hslash]
  split
  · next hc => simp [hc] at hslash
  · next hc => exact absurd hc hdot
  · next hc => simp [hc] at hslash
  · rfl

theorem isEmptyPiece_name : isEmptyPiece name.toList = false := by
  have hne : name.toList ≠ [] := by simpa using h.ne_empty
  have hdot : name.toList ≠ ['.'] := fun hd => h.ne_dot (String.toList_inj.mp hd)
  simp [isEmptyPiece, hne, hdot]

theorem isCurrent_name : isCurrent name = false := by
  rw [isCurrent, split_name h]
  rfl

/-- A name alone has one component. -/
theorem components_name : components name = [name] := by simp [components, split_name h, isEmptyPiece_name h]

end

end Path

/-! ## Steps -/

namespace Glob

/-- A step of a search. -/
inductive Step
  /-- a name that is looked up -/
  | entry (name : String)
  /-- dots that a wildcard stands for -/
  | dots (name : String)
  deriving DecidableEq

def Step.name : Step → String
  | entry name | dots name => name

/-- The path of a step. -/
def Step.path (p : Path) : Step → Path
  | entry name => entryPath p name
  | dots name => Path.join p name

/-- The path that steps spell from a path on. -/
def spell (p : Path) (steps : List Step) : Path := steps.foldl Step.path p

/-- The path that names spell. -/
def spellNames (p : Path) (names : List String) : Path := names.foldl entryPath p

@[simp] theorem spell_nil (p : Path) : spell p [] = p := rfl

@[simp] theorem spell_cons (p : Path) (s : Step) (steps : List Step) : spell p (s :: steps) = spell (s.path p) steps := rfl

@[simp] theorem spellNames_nil (p : Path) : spellNames p [] = p := rfl

@[simp] theorem spellNames_cons (p : Path) (name : String) (names : List String) :
    spellNames p (name :: names) = spellNames (entryPath p name) names := rfl

section

variable {root : FileTree} {current : Place}

open FileTree

theorem leads_step (p : Path) {s : Step} (h : '/' ∉ s.name.toList) :
    leads root current (s.path p) = leads root current p >>= fun r => follow root r s.name := by
  cases s with
  | entry name => exact leads_entryPath root current p h
  | dots name => exact leads_join root current h

/-- **A path leads where its steps lead.** -/
theorem leads_spell (p : Path) {steps : List Step} (h : ∀ s ∈ steps, '/' ∉ s.name.toList) :
    leads root current (spell p steps) =
      leads root current p >>= fun r => (steps.map Step.name).foldlM (follow root) r := by
  induction steps generalizing p with
  | nil => exact (bind_pure _).symm
  | cons s steps ih =>
    rw [List.forall_mem_cons] at h
    rw [spell_cons, ih _ h.2, leads_step p h.1, bind_assoc]
    rfl

theorem leads_spellNames (p : Path) {names : List String} (h : ∀ name ∈ names, '/' ∉ name.toList) :
    leads root current (spellNames p names) = leads root current p >>= fun r => names.foldlM (follow root) r := by
  have hspell (p : Path) : spellNames p names = spell p (names.map .entry) := by
    rw [spellNames, spell, List.foldl_map]
    rfl
  rw [hspell, leads_spell p (by simpa [Step.name] using h), List.map_map]
  simp [Function.comp_def, Step.name]

/-- Different names lead to different places. -/
theorem locate_spellNames_ne {p : Path} {names names' : List String} (h : ∀ name ∈ names, Named name)
    (h' : ∀ name ∈ names', Named name) (hne : names ≠ names') {r r' : Place}
    (hr : leads root current (spellNames p names) = .ok r) (hr' : leads root current (spellNames p names') = .ok r') :
    r ≠ r' := by
  rw [leads_spellNames p fun name hn => (h name hn).slash] at hr
  rw [leads_spellNames p fun name hn => (h' name hn).slash] at hr'
  obtain ⟨place, hplace, hr⟩ := Json.bind_eq_ok.mp hr
  obtain ⟨place', hplace', hr'⟩ := Json.bind_eq_ok.mp hr'
  cases hplace.symm.trans hplace'
  rw [foldlM_follow_named h hr, foldlM_follow_named h' hr']
  exact fun heq => hne (List.append_cancel_left heq)

end

section

open FileTree

theorem join_ne_empty {p : Path} (hp : p ≠ "") {name : String} (h : '/' ∉ name.toList) : Path.join p name ≠ "" := by
  obtain ⟨text, htext, -⟩ := Path.toList_join (p := p) h
  intro he
  rw [he] at htext
  exact hp (by simpa using (List.append_eq_nil_iff.mp htext.symm).1)

/-- Behind a path that is not the current directory, names are components of their own. -/
theorem components_spellNames_below {p : Path} (hp : p ≠ "") (hc : p.isCurrent = false) {names : List String}
    (h : ∀ name ∈ names, Named name) : (spellNames p names).components = p.components ++ names := by
  induction names generalizing p with
  | nil => simp
  | cons name names ih =>
    rw [List.forall_mem_cons] at h
    have hjoin : entryPath p name = Path.join p name := by simp [entryPath, hc]
    have hcurrent : (Path.join p name).isCurrent = false := by rw [Path.isCurrent_join hp h.1.slash, hc, Bool.false_and]
    rw [spellNames_cons, hjoin, ih (join_ne_empty hp h.1.slash) hcurrent h.2,
      Path.components_join hp h.1.slash (Path.isEmptyPiece_name h.1), List.append_assoc, List.singleton_append]

/-- **Names are the last components of the path that they spell.** -/
theorem components_spellNames {p : Path} (hp : p ≠ "") {names : List String} (h : ∀ name ∈ names, Named name)
    (hne : names ≠ []) :
    (spellNames p names).components = (if p.isCurrent then [] else p.components) ++ names := by
  cases hc : p.isCurrent with
  | false => exact components_spellNames_below hp hc h
  | true =>
    obtain ⟨name, names, rfl⟩ := List.exists_cons_of_ne_nil hne
    rw [List.forall_mem_cons] at h
    have hname : entryPath p name = name := by simp [entryPath, hc]
    rw [spellNames_cons, hname, components_spellNames_below h.1.ne_empty (Path.isCurrent_name h.1) h.2,
      Path.components_name h.1]
    rfl

end

end Glob

end SchemaWeave.Files
