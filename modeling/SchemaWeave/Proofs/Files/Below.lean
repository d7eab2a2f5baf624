import SchemaWeave.Proofs.Files.Stands

/-!
# The same tree at two places

A search that leads to nothing above the place it starts at (`Files.Glob.stays`) depends on the tree at this place alone:
where two worlds hold one tree at two places, it finds the same steps below both (`Paired.alike`). The steps that it may take
are those that an initial part of its patterns stands for (`Visits`); the paths that these spell may be too long below one
place and not below the other, which is all that can tell the searches apart.
-/

namespace SchemaWeave

open Files FileTree

/-! ## A tree within a tree -/

namespace Files.FileTree

/-- A name leads below a place to where it leads in the tree there, unless it leads above. -/
theorem follow_append {root tree : FileTree} {base : Place} (h : root.get? base = some tree) {rel : Place} {name : String}
    (hup : name = ".." → rel ≠ []) : follow root (base ++ rel) name = (follow tree rel name).map (base ++ ·) := by
  have hget : root.get? (base ++ rel) = tree.get? rel := by rw [get?_append, h, Option.bind_some]
  rw [follow, follow, hget]
  cases tree.get? rel with
  | none => rfl
  | some t =>
    cases t with
    | file _ => rfl
    | dir entries =>
      dsimp only
      split_ifs with hstay hdots hlong hsome
      · rfl
      · rw [List.dropLast_append_of_ne_nil (hup hdots)]
        rfl
      · rfl
      · rw [List.append_assoc]
        rfl
      · rfl

/-- A name that can be followed has no character that a path must not have. -/
theorem nul_of_follow {tree : FileTree} (hnamed : tree.wellNamed = true) {place r : Place} {name : String}
    (h : follow tree place name = .ok r) : '\x00' ∉ name.toList := by
  obtain ⟨entries, hentries, h⟩ := follow_eq_ok.mp h
  split_ifs at h with hstay hdots
  · rcases hstay with rfl | rfl <;> decide
  · rw [hdots]
    decide
  · obtain ⟨e, he, rfl⟩ := List.mem_map.mp (isSome_lookup_iff.mp h.2.1)
    exact ((wellNamedEntries_iff.mp (wellNamed_get? hnamed hentries)).2 e he).1.nul

end Files.FileTree

/-! ## Patterns that lead to nothing above -/

namespace Files.Glob

/-- How deep below a place a name leads from a depth on, unless it leads above. -/
def depthAfter (depth : Nat) (name : String) : Option Nat :=
  if name = "" ∨ name = "." then some depth
  else if name = ".." then if depth = 0 then none else some (depth - 1)
  else some (depth + 1)

/-- Whether patterns lead from a depth below a place to nothing above it. A piece that comes behind two stars is a name. -/
def staysFrom : (behindStars : Bool) → (depth : Nat) → List Pattern → Bool
  | _, _, [] => true
  | behindStars, depth, pattern :: patterns =>
    if pattern.isRecursive then staysFrom true depth patterns
    else if behindStars then staysFrom false (depth + 1) patterns
    else
      match pattern.literal? with
      | some name => (depthAfter depth (String.ofList name)).any fun d => staysFrom false d patterns
      | none => (Glob.specials pattern).all (fun s => (depthAfter depth s).any fun d => staysFrom false d patterns) &&
        staysFrom false (depth + 1) patterns

/-- Whether a search that starts at a place leads to nothing above it. -/
def stays (patterns : List Pattern) : Bool := staysFrom false 0 patterns

section

variable {rel : Place} {name : String} {depth : Nat} (h : depthAfter rel.length name = some depth)

include h

/-- From the place itself, no name leads up. -/
theorem ne_nil_of_depthAfter (hdots : name = "..") : rel ≠ [] := by
  rintro rfl
  rw [hdots] at h
  cases h

theorem depth_of_depthAfter {tree : FileTree} {next : Place} (hnext : follow tree rel name = .ok next) :
    depth = next.length := by
  obtain ⟨entries, -, hnext⟩ := follow_eq_ok.mp hnext
  rw [depthAfter] at h
  split_ifs at h hnext
  · rw [hnext]
    exact (Option.some.inj h).symm
  · rw [hnext, List.length_dropLast]
    exact (Option.some.inj h).symm
  · rw [hnext.2.2, List.length_append, List.length_singleton]
    exact (Option.some.inj h).symm

end

theorem depthAfter_mono {depth depth' d : Nat} (hle : depth ≤ depth') {name : String} (h : depthAfter depth name = some d) :
    ∃ d', depthAfter depth' name = some d' ∧ d ≤ d' := by
  rw [depthAfter] at h ⊢
  split_ifs at h ⊢ with hstay hdots hroot hroot'
  · cases h
    exact ⟨depth', rfl, hle⟩
  · omega
  · cases h
    exact ⟨depth' - 1, rfl, by omega⟩
  · cases h
    exact ⟨depth' + 1, rfl, by omega⟩

/-- From further below, nothing above is reached either. -/
theorem staysFrom_mono {behindStars : Bool} {depth depth' : Nat} (hle : depth ≤ depth') {patterns : List Pattern}
    (h : staysFrom behindStars depth patterns = true) : staysFrom behindStars depth' patterns = true := by
  induction patterns generalizing behindStars depth depth' with
  | nil => rfl
  | cons pattern patterns ih =>
    have hafter {name : String} (h : ((depthAfter depth name).any fun d => staysFrom false d patterns) = true) :
        ((depthAfter depth' name).any fun d => staysFrom false d patterns) = true := by
      obtain ⟨d, hd, hstays⟩ := (Option.any_eq_true ..).mp h
      obtain ⟨d', hd', hdd⟩ := depthAfter_mono hle hd
      exact (Option.any_eq_true ..).mpr ⟨d', hd', ih hdd hstays⟩
    rw [staysFrom] at h ⊢
    split
    · next hrec =>
      rw [if_pos hrec] at h
      exact ih hle h
    next hrec =>
    rw [if_neg hrec] at h
    split
    · next hbehind =>
      rw [if_pos hbehind] at h
      exact ih (by omega) h
    next hbehind =>
    rw [if_neg hbehind] at h
    cases hname : pattern.literal? with
    | some name =>
      rw [hname] at h
      exact hafter h
    | none =>
      rw [hname, Bool.and_eq_true, List.all_eq_true] at h
      rw [Bool.and_eq_true, List.all_eq_true]
      exact ⟨fun s hs => hafter (h.1 s hs), ih (by omega) h.2⟩

section

variable {behindStars : Bool} {depth : Nat} {pattern : Pattern} {patterns : List Pattern}

theorem staysFrom_recursive (hrec : pattern.isRecursive = true) :
    staysFrom behindStars depth (pattern :: patterns) = staysFrom true depth patterns := by
  rw [staysFrom, if_pos hrec]

theorem staysFrom_literal {name : List Char} (hname : pattern.literal? = some name) :
    staysFrom false depth (pattern :: patterns) = true ↔
      ∃ d, depthAfter depth (String.ofList name) = some d ∧ staysFrom false d patterns = true := by
  have hrec : pattern.isRecursive = false := by
    by_contra hrec
    rw [Pattern.literal?_of_isRecursive (by simpa using hrec)] at hname
    cases hname
  rw [staysFrom, hrec, if_neg Bool.false_ne_true, if_neg Bool.false_ne_true, hname]
  exact Option.any_eq_true ..

theorem staysFrom_names (hrec : pattern.isRecursive = false) (hname : pattern.literal? = none) :
    staysFrom false depth (pattern :: patterns) = true ↔
      (∀ s ∈ Glob.specials pattern, ∃ d, depthAfter depth s = some d ∧ staysFrom false d patterns = true) ∧
        staysFrom false (depth + 1) patterns = true := by
  rw [staysFrom, hrec, if_neg Bool.false_ne_true, if_neg Bool.false_ne_true, hname, Bool.and_eq_true, List.all_eq_true]
  simp only [Option.any_eq_true]

/-- What comes behind two stars is a name. -/
theorem staysFrom_dropRecursive {next : Pattern} {rest : List Pattern} (h : staysFrom true depth patterns = true)
    (hdrop : dropRecursive patterns = next :: rest) : staysFrom false (depth + 1) rest = true := by
  induction patterns with
  | nil => cases hdrop
  | cons pattern patterns ih =>
    rw [staysFrom] at h
    cases hrec : pattern.isRecursive with
    | true =>
      rw [dropRecursive, List.dropWhile_cons_of_pos hrec] at hdrop
      exact ih (by simpa [hrec] using h) hdrop
    | false =>
      rw [dropRecursive, List.dropWhile_cons_of_neg (by simp [hrec])] at hdrop
      obtain ⟨rfl, rfl⟩ := List.cons.inj hdrop
      simpa [hrec] using h

end

end Files.Glob

/-! ## What a search passes -/

/-- Steps that an initial part of patterns stands for, or with one more name behind it. -/
def Visits (patterns : List Pattern) (steps : List Glob.Step) : Prop :=
  ∃ before, before <+: patterns ∧ (Stands before steps ∨ Stands (before ++ [[.star]]) steps)

namespace Visits

variable {pattern : Pattern} {patterns : List Pattern} {steps : List Glob.Step}

theorem nil : Visits patterns [] := ⟨[], List.nil_prefix .., Or.inl .nil⟩

theorem star_of_stands (h : Stands [[.star]] steps) : ∃ name, Named name ∧ steps = [.entry name] := by
  cases h with
  | literal hname => cases hname
  | dots _ hs => cases hs
  | deeper hrec => cases hrec
  | entry _ _ hn _ h =>
    cases h
    exact ⟨_, hn, rfl⟩

theorem isMatch_star (name : List Char) : Pattern.isMatch [.star] name = true := by
  have hsuffix : [] ∈ Pattern.isMatch.suffixes name := by
    induction name with
    | nil => exact List.mem_singleton_self _
    | cons c name ih => exact List.mem_cons_of_mem _ ih
  rw [Pattern.isMatch, List.any_eq_true]
  exact ⟨[], hsuffix, rfl⟩

/-- A step in front of what a search passes is passed, if patterns that the steps stand for stand for it in front. -/
theorem cons {patterns' : List Pattern} {s : Glob.Step} (front : List Pattern) (hpatterns : patterns' = front ++ patterns)
    (hstands : ∀ {more : List Pattern} {steps : List Glob.Step}, Stands more steps → Stands (front ++ more) (s :: steps))
    (h : Visits patterns steps) : Visits patterns' (s :: steps) := by
  obtain ⟨before, hbefore, h⟩ := h
  refine ⟨front ++ before, ?_, ?_⟩
  · rw [hpatterns]
    exact (List.prefix_append_right_inj front).mpr hbefore
  · rw [List.append_assoc]
    exact h.imp hstands hstands

theorem literal {name : List Char} (hname : pattern.literal? = some name) (h : Visits patterns steps) :
    Visits (pattern :: patterns) (.entry (String.ofList name) :: steps) :=
  h.cons [pattern] rfl fun h => .literal hname h

theorem dots (hname : pattern.literal? = none) {s : String} (hs : s ∈ Glob.specials pattern) (h : Visits patterns steps) :
    Visits (pattern :: patterns) (.dots s :: steps) :=
  h.cons [pattern] rfl fun h => .dots hname hs h

section

variable {name : String} (hn : Named name)

include hn

theorem entry (hname : pattern.literal? = none) (hrec : pattern.isRecursive = false)
    (hmatch : pattern.isMatch name.toList = true) (h : Visits patterns steps) :
    Visits (pattern :: patterns) (.entry name :: steps) :=
  h.cons [pattern] rfl fun h => .entry hname hrec hn hmatch h

/-- Two stars pass a name. -/
theorem deeper (hrec : pattern.isRecursive = true) (h : Visits (pattern :: patterns) steps) :
    Visits (pattern :: patterns) (.entry name :: steps) := by
  have hstar {m : String} (hm : Named m) : Stands ([pattern] ++ [[.star]]) [.entry m] :=
    .here hrec rfl hm (isMatch_star _) .nil
  have hfirst : [pattern] <+: pattern :: patterns := List.prefix_append [pattern] patterns
  obtain ⟨before, hbefore, h⟩ := h
  cases before with
  | nil =>
    rcases h with h | h
    · cases h
      exact ⟨[pattern], hfirst, Or.inr (hstar hn)⟩
    · obtain ⟨m, hm, rfl⟩ := star_of_stands h
      exact ⟨[pattern], hfirst, Or.inr (.deeper hrec hn (hstar hm))⟩
  | cons first before =>
    obtain ⟨rfl, -⟩ := List.cons_prefix_cons.mp hbefore
    exact ⟨first :: before, hbefore, h.imp (.deeper hrec hn) (.deeper hrec hn)⟩

/-- The piece behind two stars stands for a name. -/
theorem here (hrec : pattern.isRecursive = true) {next : Pattern} {rest : List Pattern}
    (hdrop : Glob.dropRecursive patterns = next :: rest) (hmatch : next.isMatch name.toList = true) (h : Visits rest steps) :
    Visits (pattern :: patterns) (.entry name :: steps) := by
  have hnext := Glob.isRecursive_of_dropRecursive (hdrop ▸ List.head?_cons)
  refine h.cons (pattern :: (patterns.takeWhile Pattern.isRecursive ++ [next])) ?_ fun {more steps} h => ?_
  · rw [List.cons_append, List.append_assoc, List.singleton_append, ← hdrop, Glob.dropRecursive,
      List.takeWhile_append_dropWhile]
  · rw [List.cons_append]
    refine Stands.ofDropRecursive hrec ?_
    have hall : ∀ q ∈ patterns.takeWhile Pattern.isRecursive, q.isRecursive = true := fun q hq => List.mem_takeWhile_imp hq
    rw [List.append_assoc, Glob.dropRecursive, List.dropWhile_append_of_pos hall, List.singleton_append,
      List.dropWhile_cons_of_neg (by simp [hnext])]
    exact .here rfl hnext hn hmatch h

end

/-- No step goes down more than one directory. -/
theorem not_mem_slash (h : Visits patterns steps) (hpieces : ∀ q ∈ patterns, q.IsPiece) :
    ∀ s ∈ steps, '/' ∉ s.name.toList := by
  obtain ⟨before, hbefore, h⟩ := h
  have hfirst : ∀ q ∈ before, q.IsPiece := fun q hq => hpieces q (hbefore.subset hq)
  have hstar : ∀ q ∈ [[PatternToken.star]], Pattern.IsPiece q :=
    List.forall_mem_singleton.mpr ⟨by simp [Pattern.Plain], fun hrec => nomatch hrec⟩
  rcases h with h | h
  · exact h.not_mem_slash hfirst
  · exact h.not_mem_slash (List.forall_mem_append.mpr ⟨hfirst, hstar⟩)

end Visits

/-! ## A path below a place -/

theorem isCurrent_of_isAbsolute {p : Path} (h : p.isAbsolute = true) : p.isCurrent = false := by
  obtain ⟨cs, hcs⟩ : ∃ cs, p.toList = '/' :: cs := List.head?_eq_some_iff.mp (by simpa [Path.isAbsolute] using h)
  rw [Path.isCurrent, Path.split, hcs]
  rfl

theorem isAbsolute_append {p : Path} (hp : p.isAbsolute = true) (text : String) : Path.isAbsolute (p ++ text) = true := by
  rw [Path.isAbsolute, beq_iff_eq] at hp ⊢
  rw [String.toList_append, List.head?_append, hp, Option.some_or]

theorem isAbsolute_join {p : Path} (hp : p.isAbsolute = true) {name : String} (hname : '/' ∉ name.toList) :
    (Path.join p name).isAbsolute = true := by
  rw [Path.join, isAbsolute_of_not_mem hname, if_neg Bool.false_ne_true]
  split
  · exact isAbsolute_append hp name
  · exact isAbsolute_append (isAbsolute_append hp "/") name

/-- Behind an absolute path, all steps are put with slashes. -/
theorem path_of_isAbsolute {p : Path} (hp : p.isAbsolute = true) (s : Glob.Step) : s.path p = Path.join p s.name := by
  cases s with
  | entry name =>
    rw [Glob.Step.path, Glob.entryPath, isCurrent_of_isAbsolute hp, if_neg Bool.false_ne_true]
    rfl
  | dots name => rfl

theorem isAbsolute_spell {p : Path} (hp : p.isAbsolute = true) {steps : List Glob.Step}
    (hs : ∀ s ∈ steps, '/' ∉ s.name.toList) : (Glob.spell p steps).isAbsolute = true := by
  induction steps generalizing p with
  | nil => exact hp
  | cons s steps ih =>
    rw [List.forall_mem_cons] at hs
    rw [Glob.spell_cons, path_of_isAbsolute hp]
    exact ih (isAbsolute_join hp hs.1) hs.2

theorem ne_empty_of_isAbsolute {p : Path} (hp : p.isAbsolute = true) : p ≠ "" := by
  rintro rfl
  exact absurd hp (by decide)

/-- An absolute path that leads to a place below a base. -/
structure World.Below (w : World) (base : Place) (p : Path) (rel : Place) : Prop where
  leads : FileTree.leads w.files w.current p = .ok (base ++ rel)
  absolute : p.isAbsolute = true
  plain : '\x00' ∉ p.toList

namespace World.Below

variable {w : World} {tree : FileTree} {base : Place} {p : Path} {rel : Place} (h : w.Below base p rel)
  (hbase : w.files.get? base = some tree)

include h

theorem ne_empty : p ≠ "" := ne_empty_of_isAbsolute h.absolute

include hbase

/-- What is found there is in the tree, unless the path is too long. -/
theorem find_iff {t : FileTree} :
    w.files.find w.current p = .ok t ↔ p.utf8ByteSize < longestPath ∧ tree.get? rel = some t := by
  have hget : w.files.get? (base ++ rel) = tree.get? rel := by rw [get?_append, hbase, Option.bind_some]
  rw [find_eq_ok, checkPath_eq_ok]
  constructor
  · rintro ⟨⟨-, -, hshort⟩, place, hplace, ht⟩
    cases h.leads.symm.trans hplace
    exact ⟨hshort, hget ▸ ht⟩
  · rintro ⟨hshort, ht⟩
    exact ⟨⟨h.plain, h.ne_empty, hshort⟩, _, h.leads, hget.trans ht⟩

variable {s : Glob.Step} (hs : '/' ∉ s.name.toList)

include hs

theorem leads_path (hup : s.name = ".." → rel ≠ []) :
    FileTree.leads w.files w.current (s.path p) = (follow tree rel s.name).map (base ++ ·) := by
  rw [Glob.leads_step p hs, h.leads, ← follow_append hbase hup]
  rfl

/-- A step in the tree is a step below the base. -/
theorem step (hnamed : tree.wellNamed = true) {next : Place} (hnext : follow tree rel s.name = .ok next)
    (hup : s.name = ".." → rel ≠ []) : w.Below base (s.path p) next where
  leads := by
    rw [h.leads_path hbase hs hup, hnext]
    rfl
  absolute := by
    rw [path_of_isAbsolute h.absolute]
    exact isAbsolute_join h.absolute hs
  plain := by
    obtain ⟨text, htext, hform⟩ := Path.toList_join (p := p) hs
    rw [path_of_isAbsolute h.absolute, htext, List.mem_append, not_or]
    have hname := nul_of_follow hnamed hnext
    refine ⟨h.plain, ?_⟩
    rcases hform with rfl | ⟨rfl, -⟩
    · rw [List.mem_cons, not_or]
      exact ⟨by decide, hname⟩
    · exact hname

/-- A name that cannot be followed in the tree is not followed below the base. -/
theorem not_followed {e : OsError} (hnext : follow tree rel s.name = .error e) (hup : s.name = ".." → rel ≠ [])
    {isDir : Bool} (hdir : isDir = true → ∃ entries, tree.get? rel = some (.dir entries)) :
    (Glob.isSpecial s.name && isDir || !Glob.isSpecial s.name && w.sees (Host.pathExists (s.path p))) = false := by
  refine Bool.eq_false_iff.mpr fun hcond => ?_
  cases hspecial : Glob.isSpecial s.name with
  | true =>
    rw [hspecial, Bool.true_and, Bool.not_true, Bool.false_and, Bool.or_false] at hcond
    obtain ⟨entries, hdir⟩ := hdir hcond
    have hname : s.name = "." ∨ s.name = ".." := by simpa [Glob.isSpecial] using hspecial
    rcases hname with hname | hname <;> rw [follow, hdir, hname] at hnext <;> cases hnext
  | false =>
    rw [hspecial, Bool.false_and, Bool.false_or, Bool.not_false, Bool.true_and] at hcond
    obtain ⟨t, ht⟩ := (sees_pathExists w).mp hcond
    obtain ⟨-, r, hr, -⟩ := find_eq_ok.mp ht
    rw [h.leads_path hbase hs hup, hnext] at hr
    cases hr

end World.Below

/-! ## Two searches -/

/-- Two worlds that hold one tree. -/
structure Shared (w₁ w₂ : World) (tree : FileTree) (base₁ base₂ : Place) : Prop where
  named : tree.wellNamed = true
  left : w₁.files.get? base₁ = some tree
  right : w₂.files.get? base₂ = some tree

/-- Paths that lead to the same place below two bases, and that are both too long or neither. -/
structure Twins (w₁ w₂ : World) (base₁ base₂ : Place) (p₁ p₂ : Path) (rel : Place) : Prop where
  left : w₁.Below base₁ p₁ rel
  right : w₂.Below base₂ p₂ rel
  short : p₁.utf8ByteSize < longestPath ↔ p₂.utf8ByteSize < longestPath

/-- Two searches that found the same below two bases: the same steps spell the paths, which lead to the same places. Or both met
a directory that cannot be read. -/
def Alike (w₁ w₂ : World) (base₁ base₂ : Place) (p₁ p₂ : Path) (found₁ found₂ : Glob.Found) : Prop :=
  ((∃ e, .error e ∈ found₁) ∧ ∃ e, .error e ∈ found₂) ∨
    ∃ all : List (List Glob.Step), found₁ = all.map (fun steps => .ok (Glob.spell p₁ steps)) ∧
      found₂ = all.map (fun steps => .ok (Glob.spell p₂ steps)) ∧
      ∀ steps ∈ all, (∀ s ∈ steps, '/' ∉ s.name.toList) ∧
        ∃ rel, Twins w₁ w₂ base₁ base₂ (Glob.spell p₁ steps) (Glob.spell p₂ steps) rel

/-- Two searches with the same patterns left, at the same place of the tree below two bases, whose bounds are far enough.
Whatever the patterns lead to is too long below both bases or below neither. -/
structure Paired (w₁ w₂ : World) (tree : FileTree) (base₁ base₂ : Place) (bound₁ bound₂ : Nat) (patterns : List Pattern)
    (s₁ s₂ : Glob.Spot) (rel : Place) : Prop where
  twins : Twins w₁ w₂ base₁ base₂ s₁.path s₂.path rel
  kind : s₂.isDir = s₁.isDir
  within : s₁.isDir = true → ∃ entries, tree.get? rel = some (.dir entries)
  pieces : ∀ q ∈ patterns, q.IsPiece
  stays : Glob.staysFrom false rel.length patterns = true
  short : ∀ steps, Visits patterns steps → (∃ r, leads w₁.files w₁.current (Glob.spell s₁.path steps) = .ok r) →
    ((Glob.spell s₁.path steps).utf8ByteSize < longestPath ↔ (Glob.spell s₂.path steps).utf8ByteSize < longestPath)
  bound₁ : 2 * (room s₁.path + patterns.length) ≤ bound₁
  bound₂ : 2 * (room s₂.path + patterns.length) ≤ bound₂

section

variable {w₁ w₂ : World} {base₁ base₂ : Place} {p₁ p₂ : Path} {found₁ found₂ : Glob.Found} {rel : Place}

namespace Alike

theorem none : Alike w₁ w₂ base₁ base₂ p₁ p₂ [] [] := .inr ⟨[], rfl, rfl, List.forall_mem_nil _⟩

theorem unreadable (e₁ e₂ : GlobError) : Alike w₁ w₂ base₁ base₂ p₁ p₂ [.error e₁] [.error e₂] :=
  .inl ⟨⟨e₁, List.mem_cons_self⟩, e₂, List.mem_cons_self⟩

theorem here (h : Twins w₁ w₂ base₁ base₂ p₁ p₂ rel) : Alike w₁ w₂ base₁ base₂ p₁ p₂ [.ok p₁] [.ok p₂] :=
  .inr ⟨[[]], rfl, rfl, List.forall_mem_singleton.mpr ⟨List.forall_mem_nil _, rel, h⟩⟩

theorem append {more₁ more₂ : Glob.Found} (h : Alike w₁ w₂ base₁ base₂ p₁ p₂ found₁ found₂)
    (hmore : Alike w₁ w₂ base₁ base₂ p₁ p₂ more₁ more₂) :
    Alike w₁ w₂ base₁ base₂ p₁ p₂ (found₁ ++ more₁) (found₂ ++ more₂) := by
  rcases h with ⟨⟨e₁, h₁⟩, e₂, h₂⟩ | ⟨all, rfl, rfl, hall⟩
  · exact .inl ⟨⟨e₁, List.mem_append_left _ h₁⟩, e₂, List.mem_append_left _ h₂⟩
  rcases hmore with ⟨⟨e₁, h₁⟩, e₂, h₂⟩ | ⟨more, rfl, rfl, hmore⟩
  · exact .inl ⟨⟨e₁, List.mem_append_right _ h₁⟩, e₂, List.mem_append_right _ h₂⟩
  · exact .inr ⟨all ++ more, List.map_append.symm, List.map_append.symm, List.forall_mem_append.mpr ⟨hall, hmore⟩⟩

theorem flatMap {α : Type} {l : List α} {f₁ f₂ : α → Glob.Found}
    (h : ∀ a ∈ l, Alike w₁ w₂ base₁ base₂ p₁ p₂ (f₁ a) (f₂ a)) :
    Alike w₁ w₂ base₁ base₂ p₁ p₂ (l.flatMap f₁) (l.flatMap f₂) := by
  induction l with
  | nil => exact none
  | cons a l ih =>
    rw [List.forall_mem_cons] at h
    rw [List.flatMap_cons, List.flatMap_cons]
    exact h.1.append (ih h.2)

/-- What is found behind a step is found with the step in front. -/
theorem step {s : Glob.Step} (hs : '/' ∉ s.name.toList)
    (h : Alike w₁ w₂ base₁ base₂ (s.path p₁) (s.path p₂) found₁ found₂) :
    Alike w₁ w₂ base₁ base₂ p₁ p₂ found₁ found₂ := by
  refine h.imp_right fun h => ?_
  obtain ⟨all, rfl, rfl, hall⟩ := h
  refine ⟨all.map (s :: ·), by rw [List.map_map]; rfl, by rw [List.map_map]; rfl, ?_⟩
  rw [List.forall_mem_map]
  exact fun steps hsteps => ⟨List.forall_mem_cons.mpr ⟨hs, (hall steps hsteps).1⟩, (hall steps hsteps).2⟩

end Alike

variable {tree : FileTree} (hshared : Shared w₁ w₂ tree base₁ base₂)

include hshared

theorem Twins.find_iff (h : Twins w₁ w₂ base₁ base₂ p₁ p₂ rel) {t : FileTree} :
    w₁.files.find w₁.current p₁ = .ok t ↔ w₂.files.find w₂.current p₂ = .ok t := by
  rw [h.left.find_iff hshared.left, h.right.find_iff hshared.right, h.short]

theorem Twins.isDir (h : Twins w₁ w₂ base₁ base₂ p₁ p₂ rel) : w₂.sees (Host.isDir p₂) = w₁.sees (Host.isDir p₁) := by
  rw [Bool.eq_iff_iff, sees_isDir, sees_isDir]
  exact exists_congr fun es => (h.find_iff hshared).symm

/-- What cannot be read below one base cannot be read below the other. -/
theorem Twins.unreadable (h : Twins w₁ w₂ base₁ base₂ p₁ p₂ rel) {e : OsError}
    (hread : w₁.files.entries w₁.current p₁ = .error e) : ∃ e₂, w₂.files.entries w₂.current p₂ = .error e₂ := by
  cases hread₂ : w₂.files.entries w₂.current p₂ with
  | error e₂ => exact ⟨e₂, rfl⟩
  | ok listed =>
    obtain ⟨entries, hentries⟩ := find_of_entries w₂ hread₂
    rw [FileTree.entries, (h.find_iff hshared).mpr hentries] at hread
    cases hread

/-- What the system calls a directory is one in the tree. -/
theorem Twins.within (h : Twins w₁ w₂ base₁ base₂ p₁ p₂ rel) (hdir : w₁.sees (Host.isDir p₁) = true) :
    ∃ entries, tree.get? rel = some (.dir entries) := by
  obtain ⟨entries, hentries⟩ := (sees_isDir w₁).mp hdir
  exact ⟨entries, ((h.left.find_iff hshared.left).mp hentries).2⟩

theorem Twins.pathExists (h : Twins w₁ w₂ base₁ base₂ p₁ p₂ rel) :
    w₂.sees (Host.pathExists p₂) = w₁.sees (Host.pathExists p₁) := by
  rw [Bool.eq_iff_iff, sees_pathExists, sees_pathExists]
  exact exists_congr fun t => (h.find_iff hshared).symm

namespace Paired

variable {s₁ s₂ : Glob.Spot} {bound₁ bound₂ : Nat} {pattern : Pattern} {patterns : List Pattern} {directoriesOnly : Bool}

/-- A step leads both searches to the same place. -/
theorem step_twins (h : Paired w₁ w₂ tree base₁ base₂ bound₁ bound₂ patterns s₁ s₂ rel) (s : Glob.Step)
    (hs : '/' ∉ s.name.toList) {next : Place} (hnext : follow tree rel s.name = .ok next)
    (hup : s.name = ".." → rel ≠ []) (hvisits : Visits patterns [s]) :
    Twins w₁ w₂ base₁ base₂ (s.path s₁.path) (s.path s₂.path) next := by
  have hstep := h.twins.left.step hshared.left hs hshared.named hnext hup
  exact ⟨hstep, h.twins.right.step hshared.right hs hshared.named hnext hup, h.short [s] hvisits ⟨_, hstep.leads⟩⟩

/-- Both searches take a step. -/
theorem onward (h : Paired w₁ w₂ tree base₁ base₂ bound₁ bound₂ patterns s₁ s₂ rel) (s : Glob.Step)
    (hs : '/' ∉ s.name.toList) {next : Place} (hnext : follow tree rel s.name = .ok next)
    (hup : s.name = ".." → rel ≠ []) {left : List Pattern} (hleft : left <:+ patterns)
    (hstays : Glob.staysFrom false next.length left = true)
    (hvisits : ∀ steps, Visits left steps → Visits patterns (s :: steps)) {bound₁' bound₂' : Nat}
    (hbound₁ : 2 * (room (s.path s₁.path) + left.length) ≤ bound₁')
    (hbound₂ : 2 * (room (s.path s₂.path) + left.length) ≤ bound₂') {isDir₁ isDir₂ : Bool} (hkind : isDir₂ = isDir₁)
    (hwithin : isDir₁ = true → ∃ entries, tree.get? next = some (.dir entries)) :
    Paired w₁ w₂ tree base₁ base₂ bound₁' bound₂' left ⟨s.path s₁.path, isDir₁⟩ ⟨s.path s₂.path, isDir₂⟩ next where
  twins := h.step_twins hshared s hs hnext hup (hvisits [] .nil)
  kind := hkind
  within := hwithin
  pieces q hq := h.pieces q (hleft.subset hq)
  stays := hstays
  short steps hsteps := h.short (s :: steps) (hvisits steps hsteps)
  bound₁ := hbound₁
  bound₂ := hbound₂

/-- Both searches take the step that the first of their patterns stands for, and ask what is there. -/
theorem onward_piece (h : Paired w₁ w₂ tree base₁ base₂ (bound₁ + 2) (bound₂ + 2) (pattern :: patterns) s₁ s₂ rel)
    (s : Glob.Step) (hs : '/' ∉ s.name.toList) {next : Place} (hnext : follow tree rel s.name = .ok next)
    (hup : s.name = ".." → rel ≠ []) (hstays : Glob.staysFrom false next.length patterns = true)
    (hvisits : ∀ steps, Visits patterns steps → Visits (pattern :: patterns) (s :: steps)) :
    Paired w₁ w₂ tree base₁ base₂ (bound₁ + 1) (bound₂ + 1) patterns (w₁.spot (s.path s₁.path)) (w₂.spot (s.path s₂.path))
      next := by
  have hbound₁ := h.bound₁
  have hbound₂ := h.bound₂
  have hroom₁ := room_step h.twins.left.ne_empty hs
  have hroom₂ := room_step h.twins.right.ne_empty hs
  rw [List.length_cons] at hbound₁ hbound₂
  have htwins := h.step_twins hshared s hs hnext hup (hvisits [] .nil)
  exact h.onward hshared s hs hnext hup (List.suffix_cons ..) hstays hvisits (by omega) (by omega) (htwins.isDir hshared)
    (htwins.within hshared)

/-- Both searches go down to an entry. Then less of a path is left, and the bound may go down further. -/
theorem onward_entry (h : Paired w₁ w₂ tree base₁ base₂ (bound₁ + 2) (bound₂ + 2) patterns s₁ s₂ rel)
    {entries : List (String × FileTree)} (hdir : tree.get? rel = some (.dir entries)) {name : String} (hn : Named name)
    (hmem : name ∈ entries.map (·.1)) (hshort : s₁.path.utf8ByteSize < longestPath) {left : List Pattern}
    (hleft : left <:+ patterns) (hstays : Glob.staysFrom false (rel.length + 1) left = true)
    (hvisits : ∀ steps, Visits left steps → Visits patterns (.entry name :: steps)) :
    Paired w₁ w₂ tree base₁ base₂ bound₁ bound₂ left (Glob.Spot.entry s₁.path (name, hasDir entries name))
      (Glob.Spot.entry s₂.path (name, hasDir entries name)) (rel ++ [name]) := by
  have hnext : follow tree rel name = .ok (rel ++ [name]) := (follow_of_named hn).mpr ⟨entries, hdir, hmem, rfl⟩
  have hup : name = ".." → rel ≠ [] := fun h => absurd h hn.ne_dots
  have hlength : (rel ++ [name]).length = rel.length + 1 := List.length_append
  have hbound₁ := h.bound₁
  have hbound₂ := h.bound₂
  have hroom₁ := room_entry h.twins.left.ne_empty hn hshort
  have hroom₂ := room_entry h.twins.right.ne_empty hn (h.twins.short.mp hshort)
  have hle := hleft.length_le
  have hwithin : hasDir entries name = true → ∃ es, tree.get? (rel ++ [name]) = some (.dir es) := by
    intro hkind
    rw [get?_concat hdir]
    obtain ⟨t, ht, hkind⟩ := (Option.any_eq_true ..).mp hkind
    cases t with
    | dir es => exact ⟨es, ht⟩
    | file _ => cases hkind
  exact h.onward hshared (.entry name) hn.slash hnext hup hleft (hlength ▸ hstays) hvisits
    (by rw [Glob.Step.path]; omega) (by rw [Glob.Step.path]; omega) rfl hwithin

omit hshared in
/-- Both searches have come to the same. -/
theorem alike_arrived (h : Paired w₁ w₂ tree base₁ base₂ bound₁ bound₂ patterns s₁ s₂ rel) :
    Alike w₁ w₂ base₁ base₂ s₁.path s₂.path (Glob.arrived directoriesOnly s₁) (Glob.arrived directoriesOnly s₂) := by
  rw [Glob.arrived, Glob.arrived, h.kind]
  split
  · exact .none
  · exact .here h.twins

/-- A piece without wildcards is followed below both bases or below neither. -/
theorem alike_literal (h : Paired w₁ w₂ tree base₁ base₂ (bound₁ + 2) (bound₂ + 2) (pattern :: patterns) s₁ s₂ rel)
    {name : List Char} (hname : pattern.literal? = some name)
    (ih : ∀ {t₁ t₂ : Glob.Spot} {next : Place},
      Paired w₁ w₂ tree base₁ base₂ (bound₁ + 1) (bound₂ + 1) patterns t₁ t₂ next →
      Alike w₁ w₂ base₁ base₂ t₁.path t₂.path (w₁.finds directoriesOnly (bound₁ + 1) patterns t₁)
        (w₂.finds directoriesOnly (bound₂ + 1) patterns t₂)) :
    Alike w₁ w₂ base₁ base₂ s₁.path s₂.path (w₁.finds directoriesOnly (bound₁ + 2) (pattern :: patterns) s₁)
      (w₂.finds directoriesOnly (bound₂ + 2) (pattern :: patterns) s₂) := by
  have hs : '/' ∉ (Glob.Step.entry (String.ofList name)).name.toList :=
    (h.pieces pattern List.mem_cons_self).plain.not_mem_literal hname
  obtain ⟨d, hd, hstays⟩ := (Glob.staysFrom_literal hname).mp h.stays
  have hup : String.ofList name = ".." → rel ≠ [] := Glob.ne_nil_of_depthAfter hd
  rw [finds_literal w₁ _ _ _ _ _ hname, finds_literal w₂ _ _ _ _ _ hname]
  cases hnext : follow tree rel (String.ofList name) with
  | error e =>
    have h₁ := h.twins.left.not_followed hshared.left hs hnext hup h.within
    have h₂ := h.twins.right.not_followed hshared.right hs hnext hup (h.kind ▸ h.within)
    rw [Glob.Step.path, Glob.Step.name] at h₁ h₂
    rw [h₁, h₂, if_neg Bool.false_ne_true, if_neg Bool.false_ne_true]
    exact .none
  | ok next =>
    obtain rfl := Glob.depth_of_depthAfter hd hnext
    have honward := h.onward_piece hshared (.entry (String.ofList name)) hs hnext hup hstays fun _ => .literal hname
    have hexists : w₂.sees (Host.pathExists (Glob.entryPath s₂.path (String.ofList name))) =
        w₁.sees (Host.pathExists (Glob.entryPath s₁.path (String.ofList name))) := honward.twins.pathExists hshared
    rw [h.kind, hexists]
    split
    · exact (ih honward).step hs
    · exact .none

section

variable (h : Paired w₁ w₂ tree base₁ base₂ (bound₁ + 2) (bound₂ + 2) (pattern :: patterns) s₁ s₂ rel)
  {entries : List (String × FileTree)} (hdir : tree.get? rel = some (.dir entries)) (hname : pattern.literal? = none)

include h hdir hname

/-- Dots that a piece with wildcards stands for are followed below both bases. -/
theorem alike_dots (hrec : pattern.isRecursive = false) {s : String} (hs : s ∈ Glob.specials pattern)
    (ih : ∀ {t₁ t₂ : Glob.Spot} {next : Place},
      Paired w₁ w₂ tree base₁ base₂ (bound₁ + 1) (bound₂ + 1) patterns t₁ t₂ next →
      Alike w₁ w₂ base₁ base₂ t₁.path t₂.path (w₁.finds directoriesOnly (bound₁ + 1) patterns t₁)
        (w₂.finds directoriesOnly (bound₂ + 1) patterns t₂)) :
    Alike w₁ w₂ base₁ base₂ s₁.path s₂.path
      (w₁.finds directoriesOnly (bound₁ + 1) patterns (w₁.spot (Path.join s₁.path s)))
      (w₂.finds directoriesOnly (bound₂ + 1) patterns (w₂.spot (Path.join s₂.path s))) := by
  have hdots := mem_specials hs
  have hslash : '/' ∉ (Glob.Step.dots s).name.toList := by
    rw [Glob.Step.name]
    rcases hdots with rfl | rfl <;> decide
  obtain ⟨d, hd, hstays⟩ := ((Glob.staysFrom_names hrec hname).mp h.stays).1 s hs
  have hup : s = ".." → rel ≠ [] := Glob.ne_nil_of_depthAfter hd
  obtain ⟨next, hnext⟩ : ∃ next, follow tree rel s = .ok next := by
    rw [follow, hdir]
    rcases hdots with rfl | rfl
    · exact ⟨_, rfl⟩
    · exact ⟨_, rfl⟩
  obtain rfl := Glob.depth_of_depthAfter hd hnext
  exact (ih (h.onward_piece hshared (.dots s) hslash hnext hup hstays fun _ => .dots hname hs)).step hslash

/-- An entry is compared with the patterns in the same way below both bases. -/
theorem alike_visit {name : String} (hn : Named name) (hmem : name ∈ entries.map (·.1))
    (hshort₁ : s₁.path.utf8ByteSize < longestPath)
    (ih : ∀ {left : List Pattern} {t₁ t₂ : Glob.Spot} {next : Place},
      Paired w₁ w₂ tree base₁ base₂ bound₁ bound₂ left t₁ t₂ next → Alike w₁ w₂ base₁ base₂ t₁.path t₂.path
        (w₁.finds directoriesOnly bound₁ left t₁) (w₂.finds directoriesOnly bound₂ left t₂)) :
    Alike w₁ w₂ base₁ base₂ s₁.path s₂.path
      (w₁.sees (Glob.visit directoriesOnly (bound₁ + 1) (pattern :: patterns)
        (Glob.Spot.entry s₁.path (name, hasDir entries name)) name))
      (w₂.sees (Glob.visit directoriesOnly (bound₂ + 1) (pattern :: patterns)
        (Glob.Spot.entry s₂.path (name, hasDir entries name)) name)) := by
  refine .step (s := .entry name) hn.slash ?_
  have honward {left : List Pattern} (hleft : left <:+ pattern :: patterns)
      (hstays : Glob.staysFrom false (rel.length + 1) left = true)
      (hvisits : ∀ steps, Visits left steps → Visits (pattern :: patterns) (.entry name :: steps)) :=
    h.onward_entry hshared hdir hn hmem hshort₁ hleft hstays hvisits
  cases hrec : pattern.isRecursive with
  | false =>
    rw [visit_matched w₁ _ _ _ _ _ hrec, visit_matched w₂ _ _ _ _ _ hrec]
    split
    · next hmatch =>
      have hstays := ((Glob.staysFrom_names hrec hname).mp h.stays).2
      exact ih (honward (List.suffix_cons ..) hstays fun _ => .entry hn hname hrec hmatch)
    · exact .none
  | true =>
    obtain rfl := (h.pieces pattern List.mem_cons_self).alone hrec
    have hdeeper := Glob.staysFrom_mono (Nat.le_succ _) h.stays
    have hagain := honward (List.suffix_refl _) hdeeper fun _ => .deeper hn hrec
    rw [visit_recursive w₁ _ _ _ _ _ hrec, visit_recursive w₂ _ _ _ _ _ hrec, hagain.kind, finds_dropRecursive,
      finds_dropRecursive]
    refine .append ?_ ?_
    · cases hdrop : Glob.dropRecursive patterns with
      | nil => exact hagain.alike_arrived
      | cons next rest =>
        rw [World.seesAt, World.seesAt]
        split
        · next hmatch =>
          have hstays := h.stays
          rw [Glob.staysFrom_recursive hrec] at hstays
          have hsuffix : next :: rest <:+ patterns := hdrop ▸ List.dropWhile_suffix _
          have hleft : rest <:+ [.directories] :: patterns :=
            (List.suffix_cons ..).trans (hsuffix.trans (List.suffix_cons ..))
          exact ih (honward hleft (Glob.staysFrom_dropRecursive hstays hdrop) fun _ => .here hn hrec hdrop hmatch)
        · exact .none
    · split
      · exact ih hagain
      · exact .none

end

/-- **Below two bases that hold the same tree, a search finds the same.** By induction on the bound, as the search goes. -/
theorem alike (h : Paired w₁ w₂ tree base₁ base₂ bound₁ bound₂ patterns s₁ s₂ rel) :
    Alike w₁ w₂ base₁ base₂ s₁.path s₂.path (w₁.finds directoriesOnly bound₁ patterns s₁)
      (w₂.finds directoriesOnly bound₂ patterns s₂) := by
  induction bound₁ using Nat.strongRecOn generalizing bound₂ patterns s₁ s₂ rel with | ind bound₁ ih => ?_
  rcases patterns with _ | ⟨pattern, patterns⟩
  · rw [finds_nil, finds_nil]
    exact h.alike_arrived
  have hbound₁ := h.bound₁
  have hbound₂ := h.bound₂
  rw [List.length_cons] at hbound₁ hbound₂
  obtain ⟨bound₁, rfl⟩ : ∃ b, bound₁ = b + 2 := ⟨bound₁ - 2, by omega⟩
  obtain ⟨bound₂, rfl⟩ : ∃ b, bound₂ = b + 2 := ⟨bound₂ - 2, by omega⟩
  cases hname : pattern.literal? with
  | some name => exact h.alike_literal hshared hname (ih (bound₁ + 1) (Nat.lt_succ_self _))
  | none =>
    cases hdir : s₁.isDir with
    | false =>
      rw [finds_file w₁ _ _ _ _ _ hname hdir, finds_file w₂ _ _ _ _ _ hname (h.kind.trans hdir)]
      exact .none
    | true =>
      have hdir₂ := h.kind.trans hdir
      cases hread : w₁.files.entries w₁.current s₁.path with
      | error e =>
        obtain ⟨e₂, hread₂⟩ := h.twins.unreadable hshared hread
        rw [finds_unreadable w₁ _ _ _ _ _ hname hdir hread, finds_unreadable w₂ _ _ _ _ _ hname hdir₂ hread₂]
        exact .unreadable _ _
      | ok listed =>
        obtain ⟨entries, hentries⟩ := find_of_entries w₁ hread
        obtain ⟨hshort, htree⟩ := (h.twins.left.find_iff hshared.left).mp hentries
        have hentries₂ := (h.twins.find_iff hshared).mp hentries
        have hnamed := (wellNamedEntries_iff.mp (wellNamed_get? hshared.named htree)).2
        rw [finds_names w₁ _ _ _ _ _ hname hdir hentries, finds_names w₂ _ _ _ _ _ hname hdir₂ hentries₂]
        refine .append (.flatMap fun s hs => ?_) (.flatMap fun name hmem => ?_)
        · have hrec : pattern.isRecursive = false := by
            by_contra hrec
            obtain rfl := (h.pieces pattern List.mem_cons_self).alone (by simpa using hrec)
            cases hs
          exact h.alike_dots hshared htree hname hrec hs (ih (bound₁ + 1) (Nat.lt_succ_self _))
        · rw [List.mem_mergeSort] at hmem
          obtain ⟨e, he, rfl⟩ := List.mem_map.mp hmem
          exact h.alike_visit hshared htree hname (hnamed e he).1 hmem hshort (ih bound₁ (by omega))

end Paired

end

end SchemaWeave
