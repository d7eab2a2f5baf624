import Mathlib.Tactic.SplitIfs
import SchemaWeave.Files.Tree

/-!
# What writing a file changes

A path that a file may be written at leads to an entry of a directory (`WritesAt`, `locateForWriting_eq_ok`). The
file is read back at this path (`WritesAt.read`), and every other place has what it had: nothing, a directory, or
a file with the same bytes (`WritesAt.contentAt_of_ne`).
-/

namespace SchemaWeave.Files.FileTree

/-- What is at a place: nothing, a directory, or a file with its bytes. -/
inductive Content
  | nothing
  | directory
  | bytes (content : ByteArray)

/-- What is at a place of a tree. -/
def contentAt (root : FileTree) (place : Place) : Content :=
  match root.get? place with
  | none => .nothing
  | some (dir _) => .directory
  | some (file content) => .bytes content

/-! ## Places -/

theorem lookup_cons_eq (name other : String) (t : FileTree) (entries : List (String × FileTree)) :
    ((name, t) :: entries).lookup other = if other = name then some t else entries.lookup other := by
  rw [List.lookup_cons]
  by_cases h : other = name
  · simp [h]
  · have : (other == name) = false := by simp [h]
    rw [this, if_neg h]

theorem lookup_putEntry (name : String) (t : FileTree) (other : String) (entries : List (String × FileTree)) :
    (putEntry name t entries).lookup other = if other = name then some t else entries.lookup other := by
  induction entries with
  | nil => exact lookup_cons_eq name other t []
  | cons entry entries ih =>
    obtain ⟨n, u⟩ := entry
    rw [putEntry]
    split_ifs with hn ho ho
    · rw [lookup_cons_eq, if_pos (ho.trans hn.symm)]
    · have hne : other ≠ n := fun h => ho (h.trans hn)
      rw [lookup_cons_eq, if_neg hne, lookup_cons_eq, if_neg hne]
    · have hne : other ≠ n := fun h => hn (h.symm.trans ho)
      rw [lookup_cons_eq, if_neg hne, ih, if_pos ho]
    · rw [lookup_cons_eq, lookup_cons_eq, ih, if_neg ho]

theorem get?_append (a b : Place) : ∀ root : FileTree, root.get? (a ++ b) = (root.get? a).bind (get? b) := by
  induction a with
  | nil => exact fun _ => rfl
  | cons name a ih =>
    intro root
    cases root with
    | file _ => rfl
    | dir entries =>
      rw [List.cons_append, get?, get?, Option.bind_assoc]
      congr 1
      funext t
      exact ih t

section

variable {root : FileTree} {parent : Place} {entries : List (String × FileTree)} {last : String}

theorem get?_concat (h : root.get? parent = some (dir entries)) :
    root.get? (parent ++ [last]) = entries.lookup last := by
  rw [get?_append, h, Option.bind_some, get?]
  cases entries.lookup last <;> rfl

/-- What was put is there. -/
theorem get?_put_self (t : FileTree) (h : root.get? parent = some (dir entries)) :
    (put t (parent ++ [last]) root).get? (parent ++ [last]) = some t := by
  induction parent generalizing root with
  | nil =>
    cases h
    simp [put, get?, lookup_putEntry]
  | cons name parent ih =>
    cases root with
    | file _ => cases h
    | dir es =>
      rw [get?, Option.bind_eq_some_iff] at h
      obtain ⟨u, hu, h⟩ := h
      simp only [List.cons_append, put, get?, lookup_putEntry, if_true, hu, Option.getD_some, Option.bind_some]
      exact ih h

/-- Putting a file where no directory is changes nothing anywhere else. -/
theorem contentAt_put_of_ne (content : ByteArray) (h : root.get? parent = some (dir entries))
    (hl : ∀ es, entries.lookup last ≠ some (dir es)) {q : Place} (hq : q ≠ parent ++ [last]) :
    contentAt (put (file content) (parent ++ [last]) root) q = contentAt root q := by
  induction parent generalizing root q with
  | nil =>
    cases h
    cases q with
    | nil => rfl
    | cons m q =>
      simp only [contentAt, List.nil_append, put, get?, lookup_putEntry]
      split_ifs with hm
      · subst hm
        cases q with
        | nil => exact absurd rfl hq
        | cons k q =>
          rw [Option.bind_some]
          match hm : entries.lookup m with
          | none => rfl
          | some (file _) => rfl
          | some (dir es) => exact absurd hm (hl es)
      · rfl
  | cons name parent ih =>
    cases root with
    | file _ => cases h
    | dir es =>
      rw [get?, Option.bind_eq_some_iff] at h
      obtain ⟨u, hu, h⟩ := h
      cases q with
      | nil => rfl
      | cons m q =>
        simp only [contentAt, List.cons_append, put, get?, lookup_putEntry, hu, Option.getD_some]
        split_ifs with hm
        · subst hm
          rw [Option.bind_some, hu, Option.bind_some]
          exact ih h fun he => hq (congrArg (m :: ·) he)
        · rfl

end

/-! ## Writing -/

/-- Where a path leads that a file is written at: to an entry of a directory, which no directory stands at. -/
structure WritesAt (root : FileTree) (current : Place) (p : Path) (parent : Place) (last : String) : Prop where
  check : checkPath p = .ok ()
  pieces : ∃ init, pieces p = init ++ [last] ∧ init.foldlM (follow root) (startOf current p) = .ok parent
  name : last ≠ "" ∧ last ≠ "." ∧ last ≠ ".." ∧ last.utf8ByteSize ≤ longestName
  directory : ∃ entries, root.get? parent = some (dir entries) ∧ ∀ es, entries.lookup last ≠ some (dir es)

theorem locateForWriting_eq_ok {root : FileTree} {current place : Place} {p : Path}
    (h : locateForWriting root current p = .ok place) :
    ∃ parent last, place = parent ++ [last] ∧ WritesAt root current p parent last := by
  simp only [locateForWriting, Bind.bind, Except.bind] at h
  split at h
  · cases h
  next hcheck =>
    split at h
    · cases h
    next last init hnamed =>
      split at h
      · cases h
      next parent hparent =>
        split at h
        · cases h
        · cases h
        next entries hentries =>
          split_ifs at h with hdots hlong hslash
          have hlast : last ≠ "" := by
            have := List.head?_dropWhile_not (· = "") (pieces p).reverse
            rw [hnamed] at this
            simpa using this
          have hpieces : pieces p = init.reverse ++ [last] := by
            have hsuffix := List.dropWhile_suffix (l := (pieces p).reverse) (· = "")
            have hle := hsuffix.eq_of_length_le (Nat.le_of_not_lt hslash)
            rw [hnamed] at hle
            rw [← List.reverse_inj, List.reverse_append, List.reverse_reverse, List.reverse_singleton, ← hle]
            rfl
          split at h
          · cases h
          next hdir =>
            cases h
            simp only [not_or] at hdots
            exact ⟨parent, last, rfl, hcheck, ⟨init.reverse, hpieces, hparent⟩,
              ⟨hlast, hdots.1, hdots.2, Nat.le_of_not_lt hlong⟩, entries, hentries, hdir⟩

/-- A step of a path leads to the same place in a tree that has everything the other one has. -/
theorem follow_mono {root root' : FileTree}
    (hd : ∀ q es, root.get? q = some (dir es) → ∃ es', root'.get? q = some (dir es'))
    (hs : ∀ q, (root.get? q).isSome = true → (root'.get? q).isSome = true) {place r : Place} {piece : String}
    (h : follow root place piece = .ok r) : follow root' place piece = .ok r := by
  rw [follow] at h
  split at h
  · cases h
  · cases h
  next entries he =>
    obtain ⟨entries', he'⟩ := hd place entries he
    rw [follow, he']
    split_ifs at h with hstay hup hlong hsome
    · simpa [hstay] using h
    · simpa [hstay, hup] using h
    · have hsome' : (entries'.lookup piece).isSome = true := by
        rw [← get?_concat he']
        exact hs _ (by rw [get?_concat he]; exact hsome)
      simpa [hstay, hup, hlong, hsome'] using h

theorem foldlM_follow_mono {root root' : FileTree}
    (hd : ∀ q es, root.get? q = some (dir es) → ∃ es', root'.get? q = some (dir es'))
    (hs : ∀ q, (root.get? q).isSome = true → (root'.get? q).isSome = true) {names : List String} {place r : Place}
    (h : names.foldlM (follow root) place = .ok r) : names.foldlM (follow root') place = .ok r := by
  induction names generalizing place with
  | nil => exact h
  | cons name names ih =>
    rw [List.foldlM_cons] at h ⊢
    cases hf : follow root place name with
    | error e =>
      rw [hf] at h
      cases h
    | ok q =>
      rw [hf] at h
      rw [follow_mono hd hs hf]
      exact ih h

section

variable {root : FileTree} {current : Place} {p : Path} {parent : Place} {last : String}

/-- **Writing changes nothing anywhere else.** -/
theorem WritesAt.contentAt_of_ne (h : WritesAt root current p parent last) (content : ByteArray) {q : Place}
    (hq : q ≠ parent ++ [last]) : contentAt (put (file content) (parent ++ [last]) root) q = contentAt root q := by
  obtain ⟨entries, he, hl⟩ := h.directory
  exact contentAt_put_of_ne content he hl hq

/-- Where two trees have the same content, a directory of the one is a directory of the other. -/
theorem dir_of_contentAt_eq {root root' : FileTree} {q : Place} (hc : root'.contentAt q = root.contentAt q)
    {es : List (String × FileTree)} (hq : root.get? q = some (dir es)) : ∃ es', root'.get? q = some (dir es') := by
  simp only [contentAt, hq] at hc
  split at hc
  · cases hc
  · next es' h' => exact ⟨es', h'⟩
  · cases hc

theorem isSome_of_contentAt_eq {root root' : FileTree} {q : Place} (hc : root'.contentAt q = root.contentAt q)
    (hq : (root.get? q).isSome = true) : (root'.get? q).isSome = true := by
  obtain ⟨t, ht⟩ := Option.isSome_iff_exists.mp hq
  cases hq' : root'.get? q with
  | some _ => rfl
  | none =>
    simp only [contentAt, ht, hq'] at hc
    cases t <;> cases hc

/-- What was written is at its place. -/
theorem WritesAt.get?_self (h : WritesAt root current p parent last) (content : ByteArray) :
    (put (file content) (parent ++ [last]) root).get? (parent ++ [last]) = some (file content) := by
  obtain ⟨entries, he, -⟩ := h.directory
  exact get?_put_self _ he

/-- Writing leaves every directory a directory. -/
theorem WritesAt.dir_of_dir (h : WritesAt root current p parent last) (content : ByteArray) {q : Place}
    {es : List (String × FileTree)} (hq : root.get? q = some (dir es)) :
    ∃ es', (put (file content) (parent ++ [last]) root).get? q = some (dir es') := by
  have hne : q ≠ parent ++ [last] := by
    rintro rfl
    obtain ⟨entries, he, hl⟩ := h.directory
    rw [get?_concat he] at hq
    exact hl es hq
  exact dir_of_contentAt_eq (h.contentAt_of_ne content hne) hq

/-- Writing takes nothing away. -/
theorem WritesAt.isSome_of_isSome (h : WritesAt root current p parent last) (content : ByteArray) {q : Place}
    (hq : (root.get? q).isSome = true) : ((put (file content) (parent ++ [last]) root).get? q).isSome = true := by
  by_cases hne : q = parent ++ [last]
  · rw [hne, h.get?_self]
    rfl
  · exact isSome_of_contentAt_eq (h.contentAt_of_ne content hne) hq

/-- The name of what was written leads to it from its directory. -/
theorem WritesAt.follow_last (h : WritesAt root current p parent last) (content : ByteArray) :
    follow (put (file content) (parent ++ [last]) root) parent last = .ok (parent ++ [last]) := by
  obtain ⟨entries, he, -⟩ := h.directory
  obtain ⟨entries', he'⟩ := h.dir_of_dir content he
  have hsome : (entries'.lookup last).isSome = true := by rw [← get?_concat he', h.get?_self]; rfl
  obtain ⟨h0, h1, h2, h3⟩ := h.name
  rw [follow, he']
  simp [h0, h1, h2, Nat.not_lt.mpr h3, hsome]

theorem read_eq_ok {bytes : ByteArray} : root.read current p = .ok bytes ↔ find root current p = .ok (file bytes) := by
  rw [FileTree.read]
  cases find root current p with
  | error e => simp [Bind.bind, Except.bind]
  | ok t => cases t <;> simp [Bind.bind, Except.bind, throw, throwThe, MonadExceptOf.throw, pure, Except.pure]

/-- **What was written is read back at its path.** -/
theorem WritesAt.read (h : WritesAt root current p parent last) (content : ByteArray) :
    (put (file content) (parent ++ [last]) root).read current p = .ok content := by
  obtain ⟨init, hpieces, hinit⟩ := h.pieces
  have hself := h.get?_self content
  have hlast := h.follow_last content
  have hd := fun (q : Place) (es : List (String × FileTree)) (hq : root.get? q = some (dir es)) => h.dir_of_dir content hq
  have hs := fun (q : Place) (hq : (root.get? q).isSome = true) => h.isSome_of_isSome content hq
  generalize put (file content) (parent ++ [last]) root = root' at hself hlast hd hs ⊢
  have hlocate : locate root' current p = .ok (parent ++ [last]) := by
    rw [locate, h.check, hpieces]
    simp [Bind.bind, Except.bind, foldlM_follow_mono hd hs hinit, hlast, pure, Except.pure]
  simp [FileTree.read, find, hlocate, hself, Bind.bind, Except.bind, pure, Except.pure]

/-- What may be written once may be written again. -/
theorem WritesAt.again (h : WritesAt root current p parent last) (content : ByteArray) :
    WritesAt (put (file content) (parent ++ [last]) root) current p parent last := by
  obtain ⟨entries, he, -⟩ := h.directory
  obtain ⟨init, hpieces, hinit⟩ := h.pieces
  obtain ⟨entries', he'⟩ := h.dir_of_dir content he
  refine ⟨h.check, ⟨init, hpieces, ?_⟩, h.name, entries', he', fun es hes => ?_⟩
  · exact foldlM_follow_mono (fun _ _ => h.dir_of_dir content) (fun _ => h.isSome_of_isSome content) hinit
  · rw [← get?_concat he', h.get?_self] at hes
    cases hes

/-- The directory of what is written is found, and nothing forbids its name. -/
theorem WritesAt.locateForWriting (h : WritesAt root current p parent last) :
    FileTree.locateForWriting root current p = .ok (parent ++ [last]) := by
  obtain ⟨entries, he, hdir⟩ := h.directory
  obtain ⟨init, hpieces, hinit⟩ := h.pieces
  obtain ⟨h0, h1, h2, h3⟩ := h.name
  have hback : (FileTree.pieces p).reverse = last :: init.reverse := by rw [hpieces, List.reverse_concat]
  have hnamed : (last :: init.reverse).dropWhile (· = "") = last :: init.reverse :=
    List.dropWhile_cons_of_neg (by simpa using h0)
  simp only [FileTree.locateForWriting, Bind.bind, Except.bind, h.check, hback, hnamed, List.reverse_reverse, hinit, he,
    h1, h2, or_self, if_false, Nat.not_lt.mpr h3, Nat.lt_irrefl]
  rfl

end

theorem putEntry_putEntry (name : String) (t : FileTree) (entries : List (String × FileTree)) :
    putEntry name t (putEntry name t entries) = putEntry name t entries := by
  induction entries with
  | nil => simp [putEntry]
  | cons entry entries ih =>
    obtain ⟨n, u⟩ := entry
    by_cases hn : n = name
    · simp [putEntry, hn]
    · simp [putEntry, hn, ih]

/-- Putting the same again changes nothing. -/
theorem put_put (t : FileTree) (place : Place) : ∀ root : FileTree, put t place (put t place root) = put t place root := by
  induction place with
  | nil => exact fun _ => rfl
  | cons name place ih =>
    intro root
    cases root with
    | file _ => rfl
    | dir entries =>
      rw [put, put, lookup_putEntry, if_pos rfl, Option.getD_some, ih, putEntry_putEntry]

end SchemaWeave.Files.FileTree
