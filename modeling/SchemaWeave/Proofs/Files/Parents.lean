import Mathlib.Data.List.TakeWhile
import SchemaWeave.Proofs.Files.Steps

/-!
# The paths above a path

`up? p n` drops `n` components from a path. Each component that is dropped makes the path shorter (`length_parent?_lt`), so
the bound on `popped` is never reached: it lists the paths above a path, all of them and in order (`getElem?_popped`), up
to one that has nothing left to drop, which is the root or the empty path (`exists_top`).
-/

namespace SchemaWeave.Files.Path

/-! ## Pieces put together -/

theorem joinSlashes_cons {piece : List Char} {pieces : List (List Char)} (h : pieces ≠ []) :
    joinSlashes (piece :: pieces) = piece ++ '/' :: joinSlashes pieces := by
  cases pieces with
  | nil => exact absurd rfl h
  | cons => rfl

theorem joinSlashes_splitSlashes (cs : List Char) : joinSlashes (splitSlashes cs) = cs := by
  induction cs with
  | nil => rfl
  | cons c cs ih =>
    rw [splitSlashes]
    split
    · next h => rw [joinSlashes_cons (splitSlashes_ne_nil cs), ih, h, List.nil_append]
    · cases hpieces : splitSlashes cs with
      | nil => exact absurd hpieces (splitSlashes_ne_nil cs)
      | cons piece pieces =>
        rw [hpieces] at ih
        cases pieces with
        | nil => exact congrArg (c :: ·) ih
        | cons => exact congrArg (c :: ·) ih

/-- A path is its head with its pieces behind it. -/
theorem toList_eq_split (p : Path) : p.toList = p.split.1 ++ joinSlashes p.split.2 := by
  rw [split]
  split
  · next h => rw [h, joinSlashes_splitSlashes, List.singleton_append]
  · next h => rw [h]; rfl
  · next h => rw [h, joinSlashes_splitSlashes, List.singleton_append]
  · rw [joinSlashes_splitSlashes, List.nil_append]

/-- Every piece takes one character more than it has, but the last one. -/
theorem length_joinSlashes (pieces : List (List Char)) :
    (joinSlashes pieces).length = (pieces.flatMap ('/' :: ·)).length - 1 := by
  induction pieces with
  | nil => rfl
  | cons piece pieces ih =>
    cases pieces with
    | nil => simp [joinSlashes]
    | cons next pieces =>
      rw [joinSlashes_cons (List.cons_ne_nil _ _), List.length_append, List.length_cons, ih]
      simp only [List.flatMap_cons, List.length_append, List.length_cons]
      omega

/-! ## Dropping a component -/

/-- What is left when a component is dropped: nothing of a path that stays where it is, and else the pieces in front of the
last one that is a component. -/
theorem parent?_eq_some {p q : Path} (h : p.parent? = some q) :
    (p.split.1 = ['.'] ∧ q = "") ∨ ∃ kept between last behind, p.split.2 = kept ++ between ++ last :: behind ∧
      isEmptyPiece last = false ∧ q = String.ofList (p.split.1 ++ joinSlashes kept) := by
  simp only [parent?] at h
  have hpieces := List.takeWhile_append_dropWhile (p := isEmptyPiece) (l := p.split.2.reverse)
  cases hback : p.split.2.reverse.dropWhile isEmptyPiece with
  | nil =>
    rw [hback] at h
    simp only [beq_iff_eq] at h
    split at h
    · next hdot => exact Or.inl ⟨hdot, (Option.some.inj h).symm⟩
    · cases h
  | cons last rest =>
    rw [hback] at h hpieces
    have hlast : isEmptyPiece last = false := by
      have hhead := List.head_dropWhile_not isEmptyPiece (by rw [hback]; exact List.cons_ne_nil last rest)
      simpa only [hback, List.head_cons] using hhead
    have hrest := List.takeWhile_append_dropWhile (p := isEmptyPiece) (l := rest)
    refine Or.inr ⟨(rest.dropWhile isEmptyPiece).reverse, (rest.takeWhile isEmptyPiece).reverse, last,
      (p.split.2.reverse.takeWhile isEmptyPiece).reverse, ?_, hlast, (Option.some.inj h).symm⟩
    have hforward := congrArg List.reverse hpieces
    rw [List.reverse_reverse, List.reverse_append, List.reverse_cons, List.append_assoc, List.singleton_append] at hforward
    rw [← List.reverse_append, hrest, hforward]

/-- A path has no component to drop if its pieces are empty and it does not start with a dot. -/
theorem parent?_eq_none_iff {p : Path} :
    p.parent? = none ↔ p.split.1 ≠ ['.'] ∧ ∀ piece ∈ p.split.2, isEmptyPiece piece = true := by
  have hnil : p.split.2.reverse.dropWhile isEmptyPiece = [] ↔ ∀ piece ∈ p.split.2, isEmptyPiece piece = true := by
    simp only [List.dropWhile_eq_nil_iff, List.mem_reverse]
  rw [← hnil]
  simp only [parent?]
  cases p.split.2.reverse.dropWhile isEmptyPiece with
  | nil => simp
  | cons last rest => simp

/-- The head of a path is a slash, a dot, or nothing; without a head a path that is not empty has a component. -/
theorem split_cases (p : Path) : p.split.1 = ['/'] ∨ p.split.1 = ['.'] ∨
    p.split.1 = [] ∧ (p = "" ∨ ∃ piece ∈ p.split.2, isEmptyPiece piece = false) := by
  rw [← String.toList_eq_nil_iff, split]
  generalize p.toList = chars
  split
  · exact Or.inl rfl
  · exact Or.inr (Or.inl rfl)
  · exact Or.inr (Or.inl rfl)
  · next hroot hdot hcurrent =>
    refine Or.inr (Or.inr ⟨rfl, ?_⟩)
    rcases chars with _ | ⟨c, cs⟩
    · exact Or.inl rfl
    have hslash : c ≠ '/' := fun h => hroot cs (h ▸ rfl)
    refine Or.inr ?_
    rw [splitSlashes, if_neg hslash]
    cases hpieces : splitSlashes cs with
    | nil => exact absurd hpieces (splitSlashes_ne_nil cs)
    | cons piece pieces =>
      refine ⟨c :: piece, List.mem_cons_self, ?_⟩
      -- a first piece that is a dot makes the dot the head
      by_contra hempty
      have hdotted : c = '.' ∧ piece = [] := by simpa [isEmptyPiece] using hempty
      obtain ⟨rfl, rfl⟩ := hdotted
      rcases cs with _ | ⟨d, cs⟩
      · exact hdot rfl
      · have hd : d ≠ '/' := fun h => hcurrent cs (h ▸ rfl)
        rw [splitSlashes, if_neg hd] at hpieces
        split at hpieces <;> cases hpieces

theorem slash_not_mem_piece {p : Path} {piece : List Char} (h : piece ∈ p.split.2) : '/' ∉ piece := by
  rw [split] at h
  split at h <;> exact not_mem_of_mem_splitSlashes h

/-- A path without a last component is the root or the empty path. -/
theorem parent?_eq_none {p : Path} : p.parent? = none ↔ p = "" ∨ p.components = ["/"] := by
  have hempty : p.split.2.filter (fun piece => !isEmptyPiece piece) = [] ↔
      ∀ piece ∈ p.split.2, isEmptyPiece piece = true := by simp [List.filter_eq_nil_iff]
  have hslash : String.ofList ['/'] = "/" := rfl
  have hdot : String.ofList ['.'] = "." := rfl
  rw [parent?_eq_none_iff, ← hempty, components]
  rcases p.split_cases with h | h | ⟨h, rfl | ⟨piece, hpiece, hsome⟩⟩
  · have hne : p ≠ "" := fun he => by rw [he] at h; cases h
    simp [h, hne, hslash]
  · have hne : p ≠ "" := fun he => by rw [he] at h; cases h
    simp [h, hne, hdot]
  · decide
  · have hne : p ≠ "" := fun he => by
      rw [he] at hpiece
      obtain rfl := List.mem_singleton.mp hpiece
      cases hsome
    have hmem : piece ∈ p.split.2.filter fun piece => !isEmptyPiece piece := List.mem_filter.mpr ⟨hpiece, by rw [hsome]; rfl⟩
    refine iff_of_false (fun hnone => ?_) fun hroot => ?_
    · rw [hnone.2] at hmem
      cases hmem
    · rcases hroot with he | hroot
      · exact hne he
      · rw [if_pos h, List.nil_append] at hroot
        have hname : String.ofList piece ∈ ["/"] := hroot ▸ List.mem_map_of_mem hmem
        have hpieceChars := congrArg String.toList (List.mem_singleton.mp hname)
        rw [String.toList_ofList] at hpieceChars
        exact slash_not_mem_piece hpiece (by rw [hpieceChars]; decide)

/-- The path without its last component is shorter. -/
theorem length_parent?_lt {p q : Path} (h : p.parent? = some q) : q.length < p.length := by
  have hp := congrArg List.length p.toList_eq_split
  rw [String.length_toList, List.length_append] at hp
  rcases parent?_eq_some h with ⟨hdot, rfl⟩ | ⟨kept, between, last, behind, hpieces, hlast, rfl⟩
  · rw [hp, hdot]
    exact Nat.lt_add_right _ Nat.one_pos
  · have hne : 0 < last.length := List.length_pos_iff.mpr fun hnil => by rw [hnil] at hlast; cases hlast
    rw [hp, String.length_ofList, List.length_append, length_joinSlashes, length_joinSlashes, hpieces]
    simp only [List.flatMap_append, List.flatMap_cons, List.length_append, List.length_cons]
    omega

/-! ## Dropping components one by one -/

/-- A path without its last `n` components. -/
def up? (p : Path) : Nat → Option Path
  | 0 => some p
  | n + 1 => p.parent?.bind (up? · n)

theorem up?_succ_of_parent? {p q : Path} (h : p.parent? = some q) (n : Nat) : p.up? (n + 1) = q.up? n := by
  rw [up?, h]
  rfl

theorem up?_succ_of_top {p : Path} (h : p.parent? = none) (n : Nat) : p.up? (n + 1) = none := by
  rw [up?, h]
  rfl

theorem getElem?_poppedUpTo {bound : Nat} {p : Path} (h : p.length ≤ bound) (n : Nat) :
    (poppedUpTo bound p)[n]? = p.up? n := by
  induction bound generalizing p n with
  | zero =>
    have hempty : p = "" := String.length_eq_zero_iff.mp (Nat.le_zero.mp h)
    subst hempty
    cases n with
    | zero => rfl
    | succ n => exact (up?_succ_of_top (parent?_eq_none.mpr (Or.inl rfl)) n).symm
  | succ bound ih =>
    cases n with
    | zero => rfl
    | succ n =>
      rw [poppedUpTo, List.getElem?_cons_succ]
      cases hparent : p.parent? with
      | none => exact (up?_succ_of_top hparent n).symm
      | some q =>
        rw [up?_succ_of_parent? hparent]
        exact ih (Nat.le_of_lt_succ (Nat.lt_of_lt_of_le (length_parent?_lt hparent) h)) n

/-- The paths above a path are all that components can be dropped to, in their order. -/
theorem getElem?_popped (p : Path) (n : Nat) : p.popped[n]? = p.up? n := getElem?_poppedUpTo (Nat.le_refl _) n

/-- The paths above a path end, at the root or at the empty path. -/
theorem exists_top (p : Path) : ∃ n top, p.up? n = some top ∧ p.up? (n + 1) = none ∧ (top = "" ∨ top.components = ["/"]) := by
  induction hlength : p.length using Nat.strong_induction_on generalizing p with
  | h length ih =>
    cases hparent : p.parent? with
    | none => exact ⟨0, p, rfl, up?_succ_of_top hparent 0, parent?_eq_none.mp hparent⟩
    | some q =>
      obtain ⟨n, top, htop, hend, hroot⟩ := ih q.length (hlength ▸ length_parent?_lt hparent) q rfl
      exact ⟨n + 1, top, by rwa [up?_succ_of_parent? hparent], by rwa [up?_succ_of_parent? hparent], hroot⟩

/-! ## Names behind a path -/

/-- The name of a file is what is put behind a path last. -/
theorem fileName?_join (p : Path) {name : String} (h : FileTree.Named name) : (join p name).fileName? = some name := by
  have hlast : ∃ init, (join p name).split.2 = init ++ [name.toList] := by
    by_cases hp : p = ""
    · refine ⟨[], ?_⟩
      rw [hp, join, FileTree.isAbsolute_of_not_mem h.slash]
      exact congrArg Prod.snd (split_name h)
    · obtain ⟨init, -, -, -, hjoin⟩ := split_join hp h.slash
      exact ⟨init, congrArg Prod.snd hjoin⟩
  obtain ⟨init, hsplit⟩ := hlast
  have hdots : (name.toList == ['.', '.']) = false := beq_eq_false_iff_ne.mpr fun hd => h.ne_dots (String.toList_inj.mp hd)
  rw [fileName?, hsplit, List.reverse_append, List.reverse_singleton, List.singleton_append,
    List.dropWhile_cons_of_neg (by rw [isEmptyPiece_name h]; exact Bool.false_ne_true)]
  simp [hdots]

end SchemaWeave.Files.Path
