import SchemaWeave.Proofs.Files.Tree

/-!
# What a written file can be seen from

`leads` follows a path without a look at its length. Between a tree and the tree with a file written at a place, every
path leads to the same place, except for those that lead to the file when it is new (`Fresh`,
`WritesAt.leads_or_fresh`). So what a path finds is a directory in both trees or in neither (`WritesAt.find_dir`), it has
the same bytes unless it leads to the file (`WritesAt.find_file`), and a directory has the same names, up to the name of
the new file in its own directory (`WritesAt.names`).
-/

namespace SchemaWeave.Files

/-! ## Slashes -/

theorem splitSlashes_ne_nil : ∀ text : List Char, splitSlashes text ≠ []
  | [] => List.cons_ne_nil _ _
  | c :: cs => by
    rw [splitSlashes]
    split
    · exact List.cons_ne_nil _ _
    · split <;> exact List.cons_ne_nil _ _

theorem not_mem_of_mem_splitSlashes {text piece : List Char} (h : piece ∈ splitSlashes text) : '/' ∉ piece := by
  induction text generalizing piece with
  | nil =>
    rw [List.mem_singleton.mp h]
    exact List.not_mem_nil
  | cons c cs ih =>
    rw [splitSlashes] at h
    split at h
    · rcases List.mem_cons.mp h with rfl | h
      · exact List.not_mem_nil
      · exact ih h
    · next hc =>
      split at h
      · rw [List.mem_singleton.mp h, List.mem_singleton]
        exact fun h => hc h.symm
      · next first pieces hs =>
        rcases List.mem_cons.mp h with rfl | h
        · rw [List.mem_cons, not_or]
          exact ⟨fun h => hc h.symm, ih (hs ▸ List.mem_cons_self)⟩
        · exact ih (hs ▸ List.mem_cons_of_mem _ h)

theorem splitSlashes_of_not_mem {text : List Char} (h : '/' ∉ text) : splitSlashes text = [text] := by
  induction text with
  | nil => rfl
  | cons c cs ih =>
    rw [List.mem_cons, not_or] at h
    rw [splitSlashes, if_neg fun hc => h.1 hc.symm, ih h.2]

theorem splitSlashes_append (a b : List Char) : splitSlashes (a ++ '/' :: b) = splitSlashes a ++ splitSlashes b := by
  induction a with
  | nil => simp [splitSlashes]
  | cons c a ih =>
    rw [List.cons_append, splitSlashes, splitSlashes, ih]
    split
    · rfl
    · cases hs : splitSlashes a with
      | nil => exact absurd hs (splitSlashes_ne_nil a)
      | cons piece pieces => rfl

namespace FileTree

/-! ## Following a path -/

/-- Where a path leads, whatever its length. -/
def leads (root : FileTree) (current : Place) (p : Path) : Except OsError Place :=
  (pieces p).foldlM (follow root) (startOf current p)

section

variable {root : FileTree} {current place r : Place} {p : Path} {piece : String}

theorem locate_eq_ok : locate root current p = .ok place ↔ checkPath p = .ok () ∧ leads root current p = .ok place := by
  rw [locate, leads]
  cases checkPath p <;> simp [Bind.bind, Except.bind]

theorem find_eq_ok {t : FileTree} : find root current p = .ok t ↔
    checkPath p = .ok () ∧ ∃ place, leads root current p = .ok place ∧ root.get? place = some t := by
  rw [find]
  cases hl : locate root current p with
  | error e =>
    have hnot : ∀ place, ¬(checkPath p = .ok () ∧ leads root current p = .ok place) := by
      intro place h
      rw [locate_eq_ok.mpr h] at hl
      cases hl
    simp only [Bind.bind, Except.bind, reduceCtorEq, false_iff, not_and, not_exists]
    exact fun hcheck place hleads _ => hnot place ⟨hcheck, hleads⟩
  | ok place =>
    obtain ⟨hcheck, hleads⟩ := locate_eq_ok.mp hl
    simp only [Bind.bind, Except.bind, hcheck, hleads, true_and, Except.ok.injEq, exists_eq_left']
    cases root.get? place <;> simp [pure, Except.pure, throw, throwThe, MonadExceptOf.throw]

theorem follow_eq_ok : follow root place piece = .ok r ↔ ∃ entries, root.get? place = some (dir entries) ∧
    (if piece = "" ∨ piece = "." then r = place
      else if piece = ".." then r = place.dropLast
      else piece.utf8ByteSize ≤ longestName ∧ (entries.lookup piece).isSome = true ∧ r = place ++ [piece]) := by
  rw [follow]
  cases root.get? place with
  | none => simp
  | some t =>
    cases t with
    | file _ => simp
    | dir entries =>
      simp only [Option.some.injEq, dir.injEq, exists_eq_left']
      split_ifs with hstay hup hlong hsome
      · simp [eq_comm]
      · simp [eq_comm]
      · simp [Nat.not_le.mpr hlong]
      · simp [Nat.not_lt.mp hlong, hsome, eq_comm]
      · simp [hsome]

theorem isSome_get?_dropLast (h : (root.get? place).isSome = true) : (root.get? place.dropLast).isSome = true := by
  by_cases hp : place = []
  · rw [hp]
    rfl
  · rw [← List.dropLast_concat_getLast hp, get?_append] at h
    cases hd : root.get? place.dropLast with
    | none =>
      rw [hd] at h
      cases h
    | some _ => rfl

theorem isSome_of_follow (h : follow root place piece = .ok r) : (root.get? r).isSome = true := by
  obtain ⟨entries, he, h⟩ := follow_eq_ok.mp h
  have hplace : (root.get? place).isSome = true := by rw [he]; rfl
  split_ifs at h
  · rwa [h]
  · rw [h]
    exact isSome_get?_dropLast hplace
  · rw [h.2.2, get?_concat he]
    exact h.2.1

theorem isSome_of_foldlM {names : List String} (hnames : names ≠ [])
    (h : names.foldlM (follow root) place = .ok r) : (root.get? r).isSome = true := by
  induction names generalizing place with
  | nil => exact absurd rfl hnames
  | cons name names ih =>
    rw [List.foldlM_cons] at h
    cases hf : follow root place name with
    | error e =>
      rw [hf] at h
      cases h
    | ok next =>
      rw [hf] at h
      cases names with
      | nil =>
        cases h
        exact isSome_of_follow hf
      | cons => exact ih (List.cons_ne_nil _ _) h

/-- A path that leads anywhere leads to something. -/
theorem isSome_of_leads (h : leads root current p = .ok r) : (root.get? r).isSome = true :=
  isSome_of_foldlM (by simp [pieces, splitSlashes_ne_nil]) h

/-- Pieces that stay where they are change nothing for a name behind them. -/
theorem foldlM_follow_stay {names : List String} (hnames : ∀ n ∈ names, n = "" ∨ n = ".") :
    (names ++ [piece]).foldlM (follow root) place = follow root place piece := by
  induction names with
  | nil => simp
  | cons name names ih =>
    have hname := hnames name List.mem_cons_self
    have hrest := ih fun n hn => hnames n (List.mem_cons_of_mem name hn)
    rw [List.cons_append, List.foldlM_cons]
    cases ht : root.get? place with
    | none => simp [follow, ht, Bind.bind, Except.bind]
    | some t =>
      cases t with
      | file _ => simp [follow, ht, Bind.bind, Except.bind]
      | dir entries =>
        have hstay : follow root place name = .ok place := by simp [follow, ht, hname]
        rw [hstay]
        exact hrest

end

/-! ## Paths put together -/

section

variable (root : FileTree) (current : Place) {p name : Path}

theorem isAbsolute_of_not_mem (h : '/' ∉ name.toList) : Path.isAbsolute name = false := by
  rw [Path.isAbsolute]
  cases hn : name.toList with
  | nil => rfl
  | cons c cs =>
    rw [hn, List.mem_cons, not_or] at h
    simp [Ne.symm h.1]

/-- A name behind a path is the last piece, where a path with a slash at its end has an empty piece. -/
theorem pieces_join (hname : '/' ∉ name.toList) : ∃ init blanks, (∀ n ∈ blanks, n = "" ∨ n = ".") ∧
    pieces p = init ++ blanks ∧ pieces (Path.join p name) = init ++ [name] ∧
    startOf current (Path.join p name) = startOf current p := by
  have hpieces : pieces name = [name] := by simp [pieces, splitSlashes_of_not_mem hname]
  have hstart (tail : String) (hp : p ≠ "") : startOf current (p ++ tail) = startOf current p := by
    have hhead : p.toList.head?.isSome = true := List.isSome_head?.mpr (by simpa using hp)
    rw [startOf, startOf, Path.isAbsolute, Path.isAbsolute, String.toList_append, List.head?_append,
      Option.or_of_isSome hhead]
  rw [Path.join, isAbsolute_of_not_mem hname, if_neg Bool.false_ne_true]
  by_cases hp : p = ""
  · subst hp
    refine ⟨[], [""], by simp, rfl, by simpa using hpieces, ?_⟩
    have hempty : Path.isAbsolute "" = false := rfl
    simp [startOf, hempty, isAbsolute_of_not_mem hname]
  split
  · next hslash =>
    obtain ⟨init, hinit⟩ := List.getLast?_eq_some_iff.mp (by simpa [hp] using hslash)
    refine ⟨(splitSlashes init).map String.ofList, [""], by simp, ?_, ?_, hstart _ hp⟩
    · rw [pieces, hinit, splitSlashes_append]
      simp [splitSlashes]
    · rw [pieces, String.toList_append, hinit, List.append_assoc, List.singleton_append, splitSlashes_append,
        splitSlashes_of_not_mem hname]
      simp
  · have hbehind := hstart ("/" ++ name) hp
    rw [← String.append_assoc] at hbehind
    refine ⟨pieces p, [], by simp, by simp, ?_, hbehind⟩
    have htext : (p ++ "/" ++ name).toList = p.toList ++ '/' :: name.toList := by simp
    rw [pieces, htext, splitSlashes_append, splitSlashes_of_not_mem hname]
    simp [pieces]

/-- A name behind a path leads one step on from where the path leads. -/
theorem leads_join (hname : '/' ∉ name.toList) :
    leads root current (Path.join p name) = leads root current p >>= fun r => follow root r name := by
  obtain ⟨init, blanks, hblanks, hpieces, hjoin, hstart⟩ := pieces_join current (p := p) hname
  rw [leads, leads, hpieces, hjoin, hstart, List.foldlM_append, List.foldlM_append, bind_assoc]
  congr 1
  funext r
  have hstay : (blanks ++ [name]).foldlM (follow root) r = follow root r name := foldlM_follow_stay hblanks
  rw [List.foldlM_append] at hstay
  simpa using hstay.symm

theorem pieces_of_isCurrent (hp : p.isCurrent = true) :
    (∀ n ∈ pieces p, n = "" ∨ n = ".") ∧ startOf current p = current := by
  rw [Path.isCurrent, Bool.and_eq_true] at hp
  obtain ⟨hhead, hall⟩ := hp
  have hblank (cs : List Char) (hcs : Path.isEmptyPiece cs = true) :
      String.ofList cs = "" ∨ String.ofList cs = "." := by
    simp only [Path.isEmptyPiece, Bool.or_eq_true, List.isEmpty_iff, beq_iff_eq] at hcs
    rcases hcs with rfl | rfl
    · exact Or.inl rfl
    · exact Or.inr rfl
  rw [Path.split] at hhead hall
  rw [pieces, startOf, Path.isAbsolute]
  split at hhead
  · cases hhead
  · next hdot => simp [hdot, splitSlashes]
  · next cs hdot =>
    have hbehind : (splitSlashes cs).all Path.isEmptyPiece = true := by
      simp only [hdot] at hall
      rw [show '/' :: cs = [] ++ '/' :: cs from rfl, splitSlashes_append, List.all_append, Bool.and_eq_true] at hall
      exact hall.2
    rw [hdot, show '.' :: '/' :: cs = ['.'] ++ '/' :: cs from rfl, splitSlashes_append, List.map_append]
    refine ⟨fun n hn => ?_, rfl⟩
    rcases List.mem_append.mp hn with hn | hn
    · exact Or.inr (List.mem_singleton.mp hn)
    · obtain ⟨piece, hpiece, rfl⟩ := List.mem_map.mp hn
      exact hblank piece (List.all_eq_true.mp hbehind piece hpiece)
  · cases hhead

/-- A name alone leads one step on from the working directory. -/
theorem leads_of_isCurrent (hp : p.isCurrent = true) (hname : '/' ∉ name.toList) :
    leads root current name = leads root current p >>= fun r => follow root r name := by
  obtain ⟨hblanks, hstart⟩ := pieces_of_isCurrent current hp
  have hpieces : pieces name = [name] := by simp [pieces, splitSlashes_of_not_mem hname]
  have hname' : startOf current name = current := by rw [startOf, isAbsolute_of_not_mem hname, if_neg Bool.false_ne_true]
  have hstay : (pieces p ++ [name]).foldlM (follow root) current = follow root current name := foldlM_follow_stay hblanks
  rw [List.foldlM_append] at hstay
  rw [leads, leads, hpieces, hname', hstart]
  simpa using hstay.symm

end

/-! ## A file that is written -/

/-- The names of a directory are the same when an entry is replaced. -/
theorem names_putEntry (name : String) (t : FileTree) (entries : List (String × FileTree)) :
    (putEntry name t entries).map (·.1) =
      if (entries.lookup name).isSome then entries.map (·.1) else entries.map (·.1) ++ [name] := by
  induction entries with
  | nil => simp [putEntry]
  | cons entry entries ih =>
    obtain ⟨n, u⟩ := entry
    rw [putEntry, lookup_cons_eq]
    by_cases hn : n = name
    · rw [if_pos hn, if_pos hn.symm]
      rfl
    · rw [if_neg hn, if_neg (Ne.symm hn), List.map_cons, ih]
      split <;> rfl

/-- The same names are those of directories when an entry is replaced by one of its kind. -/
theorem hasDir_putEntry {name : String} {t : FileTree} {entries : List (String × FileTree)}
    (h : t.isDir = hasDir entries name) : hasDir (putEntry name t entries) = hasDir entries := by
  funext n
  rw [hasDir, lookup_putEntry]
  split_ifs with hn
  · rw [hn]
    exact h
  · rfl

/-- What is put below a place leaves it what it is. -/
theorem isDir_put (t : FileTree) {place : Place} (h : place ≠ []) (u : FileTree) : (put t place u).isDir = u.isDir := by
  obtain ⟨name, place, rfl⟩ := List.exists_cons_of_ne_nil h
  cases u <;> rfl

/-- Putting a file at an entry changes the entries of no directory, as far as their names and kinds go, but for a new name of
that one. -/
theorem names_put {root : FileTree} {parent : Place} {last : String} {entries : List (String × FileTree)}
    (content : ByteArray) (h : root.get? parent = some (dir entries)) (hfile : hasDir entries last = false)
    {q : Place} {es es' : List (String × FileTree)} (hq : root.get? q = some (dir es))
    (hq' : (put (file content) (parent ++ [last]) root).get? q = some (dir es')) :
    hasDir es' = hasDir es ∧ (es'.map (·.1) = es.map (·.1) ∨
      q = parent ∧ entries.lookup last = none ∧ es'.map (·.1) = es.map (·.1) ++ [last]) := by
  induction parent generalizing root q with
  | nil =>
    cases h
    cases q with
    | nil =>
      cases hq
      cases hq'
      refine ⟨hasDir_putEntry hfile.symm, ?_⟩
      rw [names_putEntry]
      cases entries.lookup last with
      | none => exact Or.inr ⟨rfl, rfl, rfl⟩
      | some _ => exact Or.inl rfl
    | cons m q =>
      simp only [List.nil_append, put, get?, lookup_putEntry] at hq hq'
      split_ifs at hq' with hm
      · cases q <;> cases hq'
      · rw [hq] at hq'
        cases hq'
        exact ⟨rfl, Or.inl rfl⟩
  | cons name parent ih =>
    cases root with
    | file _ => cases h
    | dir fs =>
      rw [get?, Option.bind_eq_some_iff] at h
      obtain ⟨u, hu, h⟩ := h
      cases q with
      | nil =>
        cases hq
        cases hq'
        have hkind : (put (file content) (parent ++ [last]) u).isDir = hasDir es name := by
          rw [isDir_put _ (by simp) u, hasDir, hu]
          rfl
        rw [names_putEntry, hu]
        exact ⟨hasDir_putEntry hkind, Or.inl rfl⟩
      | cons m q =>
        simp only [List.cons_append, put, get?, lookup_putEntry, hu, Option.getD_some] at hq hq'
        split_ifs at hq' with hm
        · subst hm
          rw [hu] at hq
          rw [List.cons.injEq, eq_self, true_and]
          exact ih h hq hq'
        · rw [hq] at hq'
          cases hq'
          exact ⟨rfl, Or.inl rfl⟩

/-- A path that leads to a place where nothing was in `root` and something is in `root'`. -/
def Fresh (root root' : FileTree) (current place : Place) (p : Path) : Prop :=
  root.get? place = none ∧ leads root' current p = .ok place

section

variable {root root' : FileTree} {current : Place} {out : Path} {parent : Place} {last : String} {content : ByteArray}
  (h : WritesAt root current out parent last) (hroot : root' = put (file content) (parent ++ [last]) root)

include h in
/-- The name of a file is no path. -/
theorem WritesAt.not_mem_last : '/' ∉ last.toList := by
  obtain ⟨init, hpieces, -⟩ := h.pieces
  have hlast : last ∈ (splitSlashes out.toList).map String.ofList := by
    rw [← FileTree.pieces, hpieces]
    exact List.mem_append_right _ List.mem_cons_self
  obtain ⟨piece, hpiece, rfl⟩ := List.mem_map.mp hlast
  rw [String.toList_ofList]
  exact not_mem_of_mem_splitSlashes hpiece

include h hroot

/-- What is written is no directory, so a directory has been there before. -/
theorem WritesAt.dir_before {q : Place} {es' : List (String × FileTree)} (hq : root'.get? q = some (dir es')) :
    q ≠ parent ++ [last] ∧ ∃ es, root.get? q = some (dir es) := by
  have hne : q ≠ parent ++ [last] := by
    rintro rfl
    rw [hroot, h.get?_self] at hq
    cases hq
  exact ⟨hne, dir_of_contentAt_eq (hroot ▸ h.contentAt_of_ne content hne).symm hq⟩

/-- A step in the tree with the file is one in the tree without, or leads to the new file. -/
theorem WritesAt.follow_before {place r : Place} {piece : String} (hf : follow root' place piece = .ok r) :
    follow root place piece = .ok r ∨ (root.get? r = none ∧ r = parent ++ [last]) := by
  obtain ⟨es', he', hr⟩ := follow_eq_ok.mp hf
  obtain ⟨-, es, he⟩ := h.dir_before hroot he'
  by_cases hnew : root.get? r = none ∧ r = parent ++ [last]
  · exact Or.inr hnew
  refine Or.inl (follow_eq_ok.mpr ⟨es, he, ?_⟩)
  split_ifs at hr ⊢ with hstay hup
  · exact hr
  · exact hr
  · refine ⟨hr.1, ?_, hr.2.2⟩
    have hsome : (root'.get? r).isSome = true := by
      rw [hr.2.2, get?_concat he']
      exact hr.2.1
    rw [← get?_concat he, ← hr.2.2]
    by_cases hq : r = parent ++ [last]
    · exact Option.isSome_iff_ne_none.mpr fun hnone => hnew ⟨hnone, hq⟩
    · exact isSome_of_contentAt_eq (hroot ▸ h.contentAt_of_ne content hq).symm hsome

/-- By induction on the pieces: from the new file, which is no directory, no piece leads on. -/
theorem WritesAt.foldlM_before {names : List String} {place r : Place} (hf : names.foldlM (follow root') place = .ok r) :
    names.foldlM (follow root) place = .ok r ∨ (root.get? r = none ∧ r = parent ++ [last]) := by
  induction names generalizing place with
  | nil => exact Or.inl hf
  | cons name names ih =>
    rw [List.foldlM_cons] at hf ⊢
    cases hstep : follow root' place name with
    | error e =>
      rw [hstep] at hf
      cases hf
    | ok next =>
      rw [hstep] at hf
      rcases h.follow_before hroot hstep with hstep' | ⟨hnone, rfl⟩
      · rw [hstep']
        exact ih hf
      · cases names with
        | nil =>
          cases hf
          exact Or.inr ⟨hnone, rfl⟩
        | cons name' names =>
          have hstop : ∀ piece, follow root' (parent ++ [last]) piece = .error .notDirectory := by
            intro piece
            rw [follow, hroot, h.get?_self]
          change (name' :: names).foldlM (follow root') (parent ++ [last]) = .ok r at hf
          rw [List.foldlM_cons, hstop] at hf
          cases hf

/-- The path that the file was written at leads to it. -/
theorem WritesAt.leads_out : leads root' current out = .ok (parent ++ [last]) := by
  obtain ⟨init, hpieces, hinit⟩ := (h.again content).pieces
  rw [← hroot] at hinit
  rw [leads, hpieces, List.foldlM_append, hinit]
  change [last].foldlM (follow root') parent = _
  rw [List.foldlM_cons, hroot, h.follow_last]
  rfl

theorem WritesAt.leads_after {p : Path} {r : Place} (hp : leads root current p = .ok r) :
    leads root' current p = .ok r := by
  rw [hroot]
  exact foldlM_follow_mono (fun _ _ => h.dir_of_dir content) (fun _ => h.isSome_of_isSome content) hp

/-- **Every path leads where it led before, or to the new file.** -/
theorem WritesAt.leads_or_fresh {p : Path} {r : Place} (hp : leads root' current p = .ok r) :
    leads root current p = .ok r ∨ r = parent ++ [last] ∧ Fresh root root' current (parent ++ [last]) p := by
  rcases h.foldlM_before hroot hp with hp' | ⟨hnone, rfl⟩
  · exact Or.inl hp'
  · exact Or.inr ⟨rfl, hnone, hp⟩

/-- A path finds a directory in both trees or in neither. -/
theorem WritesAt.find_dir {p : Path} : (∃ es', find root' current p = .ok (dir es')) ↔
    ∃ es, find root current p = .ok (dir es) := by
  simp only [find_eq_ok]
  constructor
  · rintro ⟨es', hcheck, r, hr, he'⟩
    obtain ⟨hne, es, he⟩ := h.dir_before hroot he'
    rcases h.leads_or_fresh hroot hr with hr' | ⟨hq, -⟩
    · exact ⟨es, hcheck, r, hr', he⟩
    · exact absurd hq hne
  · rintro ⟨es, hcheck, r, hr, he⟩
    obtain ⟨es', he'⟩ := h.dir_of_dir content he
    exact ⟨es', hcheck, r, h.leads_after hroot hr, hroot ▸ he'⟩

/-- A file that is found in the tree without the new file is found with the same bytes, unless it is the one written. -/
theorem WritesAt.find_file {p : Path} {bytes : ByteArray} (hp : find root current p = .ok (file bytes)) :
    ∃ bytes', find root' current p = .ok (file bytes') ∧
      (leads root' current p ≠ .ok (parent ++ [last]) → bytes' = bytes) := by
  obtain ⟨hcheck, r, hr, hget⟩ := find_eq_ok.mp hp
  have hr' := h.leads_after hroot hr
  by_cases hq : r = parent ++ [last]
  · refine ⟨content, find_eq_ok.mpr ⟨hcheck, r, hr', ?_⟩, fun hne => absurd (hq ▸ hr') hne⟩
    rw [hq, hroot, h.get?_self]
  · refine ⟨bytes, find_eq_ok.mpr ⟨hcheck, r, hr', ?_⟩, fun _ => rfl⟩
    have hsame := h.contentAt_of_ne content hq
    rw [← hroot] at hsame
    simp only [contentAt, hget] at hsame
    split at hsame
    · cases hsame
    · cases hsame
    · next bytes' hbytes' =>
      cases hsame
      exact hbytes'

/-- A file that is found in the tree with the new file is found in the tree without, or the path leads to the new file. -/
theorem WritesAt.find_file_before {p : Path} {bytes' : ByteArray} (hp : find root' current p = .ok (file bytes')) :
    (∃ bytes, find root current p = .ok (file bytes)) ∨ Fresh root root' current (parent ++ [last]) p := by
  obtain ⟨hcheck, r, hr, hget⟩ := find_eq_ok.mp hp
  rcases h.leads_or_fresh hroot hr with hr' | ⟨-, hfresh⟩
  · obtain ⟨t, ht⟩ := Option.isSome_iff_exists.mp (isSome_of_leads hr')
    cases t with
    | file bytes => exact Or.inl ⟨bytes, find_eq_ok.mpr ⟨hcheck, r, hr', ht⟩⟩
    | dir es =>
      obtain ⟨es', he'⟩ := h.dir_of_dir content ht
      rw [← hroot, hget] at he'
      cases he'
  · exact Or.inr hfresh

/-- **A directory has the names that it had**, and that of the new file if it is its directory; the same names are those of
directories. -/
theorem WritesAt.names {p : Path} {es es' : List (String × FileTree)} (hp : find root current p = .ok (dir es))
    (hp' : find root' current p = .ok (dir es')) : hasDir es' = hasDir es ∧ (es'.map (·.1) = es.map (·.1) ∨
      es'.map (·.1) = es.map (·.1) ++ [last] ∧ root.get? (parent ++ [last]) = none ∧ leads root current p = .ok parent) := by
  obtain ⟨hcheck, r, hr, hget⟩ := find_eq_ok.mp hp
  obtain ⟨-, r', hr', hget'⟩ := find_eq_ok.mp hp'
  cases (h.leads_after hroot hr).symm.trans hr'
  obtain ⟨entries, he, hdir⟩ := h.directory
  have hfile : hasDir entries last = false := by
    rw [hasDir]
    cases hlast : entries.lookup last with
    | none => rfl
    | some t =>
      cases t with
      | dir es => exact absurd hlast (hdir es)
      | file _ => rfl
  obtain ⟨hkinds, hsame | ⟨rfl, hnone, hnew⟩⟩ := names_put content he hfile hget (hroot ▸ hget')
  · exact ⟨hkinds, Or.inl hsame⟩
  · exact ⟨hkinds, Or.inr ⟨hnew, (get?_concat he).trans hnone, hr⟩⟩

end

end FileTree

end SchemaWeave.Files
