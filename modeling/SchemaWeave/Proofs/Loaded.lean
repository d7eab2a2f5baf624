import SchemaWeave.Proofs.Rerun

/-!
# What is loaded merges

A file that was loaded as a schema is a fragment that contributes to a merge (`contributes_of_loadFile`), and so is every
local fragment (`contributes_of_loadLocal`). So local files and a remote schema file always merge, and where a merge
fails in a run, the remote schema is a printed one, and it is what the error names (`loaded_merges`).
-/

namespace SchemaWeave

open Files Merge

/-! ## Merging -/

section

variable {fragments : List Fragment}

theorem failsAt_of_mergeFragments {e : MergeError} (h : mergeFragments fragments = .error e) : FailsAt fragments e := by
  have hresult := mergeDocuments_result fragments
  rw [mergeFragments] at h
  cases hmerge : mergeDocuments fragments with
  | ok doc =>
    rw [hmerge] at h
    cases h
  | error e' =>
    rw [hmerge] at h hresult
    cases h
    exact hresult

/-- Fragments that all contribute merge. -/
theorem mergeFragments_of_contributes (h : ∀ f ∈ fragments, ∃ doc, Contributes f doc) :
    ∃ text, mergeFragments fragments = .ok text := by
  cases hmerge : mergeFragments fragments with
  | ok text => exact ⟨text, rfl⟩
  | error e =>
    obtain ⟨before, f, after, rfl, -, hnone, -⟩ := failsAt_of_mergeFragments hmerge
    exact absurd (h f (List.mem_append_right _ List.mem_cons_self)) hnone

/-- An extension contributes, too. -/
example : (mergeFragments [⟨"a", "type A \x7b a: Int \x7d"⟩, ⟨"b", "extend type A \x7b b: Int \x7d"⟩]).toOption.isSome =
    true := by
  decide +kernel

/-- Where only the last fragment may contribute nothing, it is the one that fails the merge. -/
theorem mergeFragments_concat_error {remote : Fragment} (h : ∀ f ∈ fragments, ∃ doc, Contributes f doc) {e : MergeError}
    (hmerge : mergeFragments (fragments ++ [remote]) = .error e) :
    (¬∃ doc, Contributes remote doc) ∧ e.source = remote.source := by
  obtain ⟨before, f, after, hsplit, -, hnone, hsource⟩ := failsAt_of_mergeFragments hmerge
  have hmem : f ∈ fragments ++ [remote] := hsplit ▸ List.mem_append_right before List.mem_cons_self
  rcases List.mem_append.mp hmem with hlocal | hlast
  · exact absurd (h f hlocal) hnone
  · obtain rfl := List.mem_singleton.mp hlast
    exact ⟨hnone, hsource⟩

end

/-! ## Loading -/

section

variable (w : World)

/-- A loaded file has the text of the file, and this text can be read and holds nothing executable. -/
theorem sees_loadFile {p : Path} {f : Fragment} : w.sees (loadFile p) = .ok f ↔
    f.source = p ∧ w.sees (Host.readText p) = .ok f.sdl ∧ ∃ doc, Contributes f doc := by
  refine ((looks_readText p).sees_andThen w).trans ?_
  constructor
  · rintro ⟨text, htext, h⟩
    cases hparse : Graphql.Document.parse text with
    | error e =>
      simp only [hparse] at h
      cases h
    | ok doc =>
      simp only [hparse] at h
      split at h
      · cases h
      · next hany =>
        cases h
        exact ⟨rfl, htext, doc, hparse, by simpa using hany⟩
  · rintro ⟨rfl, htext, doc, hparse, hany⟩
    have hnone : doc.any Graphql.Definition.isExecutable = false := List.any_eq_false.mpr fun d hd => by simp [hany d hd]
    refine ⟨f.sdl, htext, ?_⟩
    simp only [hparse, hnone, if_neg Bool.false_ne_true]
    rfl

theorem contributes_of_loadFile {p : Path} {f : Fragment} (h : w.sees (loadFile p) = .ok f) : ∃ doc, Contributes f doc :=
  ((sees_loadFile w).mp h).2.2

theorem contributes_of_loadPaths {found : Glob.Found} {fragments : List Fragment}
    (h : w.sees (loadPaths found) = .ok fragments) : ∀ f ∈ fragments, ∃ doc, Contributes f doc := by
  induction found generalizing fragments with
  | nil =>
    cases h
    exact List.forall_mem_nil _
  | cons first found ih =>
    cases first with
    | error e => cases h
    | ok p =>
      rw [sees_loadPaths_cons] at h
      split at h
      · exact ih h
      · obtain ⟨f, hfile, rest, hrest, rfl⟩ := h
        exact List.forall_mem_cons.mpr ⟨contributes_of_loadFile w hfile, ih hrest⟩

theorem contributes_of_loadLocal {base : Path} {pattern : String} {fragments : List Fragment}
    (h : w.sees (loadLocal base pattern) = .ok fragments) : ∀ f ∈ fragments, ∃ doc, Contributes f doc := by
  obtain ⟨found, -, hload, -⟩ := (sees_loadLocal w).mp h
  exact contributes_of_loadPaths w hload

/-- The remote schema is named by its address or path. -/
theorem source_of_fetchRemote {client : Introspection.Client} {source : RemoteSource} {remote : Fragment}
    (h : w.sees (fetchRemote client source) = .ok remote) : remote.source = source.describe := by
  cases source with
  | url endpoint =>
    obtain ⟨sdl, -, h⟩ := (sees_andThen w).mp h
    cases h
    rfl
  | file p =>
    obtain ⟨loaded, hloaded, h⟩ := ((looks_loadStatic p).sees_andThen w).mp h
    cases h
    rw [loadStatic] at hloaded
    split at hloaded
    · obtain ⟨text, -, hstored⟩ := ((looks_readText p).sees_andThen w).mp hloaded
      dsimp only at hstored
      split at hstored
      · cases hstored
      · cases hstored
        rfl
    · exact ((sees_loadFile w).mp hloaded).1

theorem describe_ofText (identifier : String) (insecure : Bool) :
    (RemoteSource.ofText identifier insecure).describe = identifier := by
  rw [RemoteSource.ofText]
  split <;> rfl

/-- Two stages fail if the first does, or the second on what the first gives and leaves. -/
theorem sees_andThen_error {ε ε' α β : Type} {x : StateM World (Except ε α)}
    {f : Except ε α → StateM World (Except ε' β)} {g : ε → ε'}
    (herror : ∀ e, f (.error e) = pure (.error (g e)) := by exact fun _ => rfl) {e : ε'} :
    w.sees (x >>= f) = .error e ↔
      (∃ e₀, w.sees x = .error e₀ ∧ g e₀ = e) ∨ ∃ a, w.sees x = .ok a ∧ (x.run w).2.sees (f (.ok a)) = .error e := by
  rw [World.sees, run_bind, World.sees]
  cases (x.run w).1 with
  | error e₀ =>
    rw [herror, run_pure]
    simp
  | ok a => simp [World.sees]

theorem fetchRemote_ne_mergeError (client : Introspection.Client) (source : RemoteSource) (e : MergeError) :
    w.sees (fetchRemote client source) ≠ .error (.merge e) := by
  intro h
  cases source with
  | url endpoint =>
    rcases (sees_andThen_error w).mp h with ⟨_, -, h⟩ | ⟨_, -, h⟩
    · cases h
    · cases h
  | file p =>
    rcases (sees_andThen_error w).mp h with ⟨_, -, h⟩ | ⟨_, -, h⟩
    · cases h
    · cases h

/-- What is merged fails to be gathered for other reasons than the merge. -/
theorem gather_ne_mergeError (o : RunOptions) (e : MergeError) : w.sees (gather o) ≠ .error (.merge e) := by
  intro h
  rcases (sees_andThen_error w).mp h with ⟨_, -, h⟩ | ⟨found, -, h⟩
  · cases h
  · rcases (sees_andThen_error (g := id) _).mp h with ⟨_, hremote, rfl⟩ | ⟨_, -, h⟩
    · exact fetchRemote_ne_mergeError _ _ _ _ hremote
    · cases h

theorem artifactOf_eq_mergeError {fragments : List Fragment} {e : MergeError}
    (h : artifactOf fragments = .error (.merge e)) : mergeFragments fragments = .error e := by
  rw [artifactOf] at h
  cases hmerge : mergeFragments fragments with
  | error e' =>
    rw [hmerge] at h
    cases h
    rfl
  | ok text =>
    cases hbuild : Schema.build text <;> simp [hmerge, hbuild, Except.mapError, bind, Except.bind] at h

/-- A run whose merge fails has gathered what it merges. -/
theorem gather_of_mergeError {o : RunOptions} {e : MergeError} (h : w.sees (introspectSchema o) = .error (.merge e)) :
    ∃ fragments, w.sees (gather o) = .ok fragments ∧ mergeFragments fragments = .error e := by
  rcases (sees_andThen_error (g := id) w).mp h with ⟨_, hgather, rfl⟩ | ⟨fragments, hgather, h⟩
  · exact absurd hgather (gather_ne_mergeError w o e)
  refine ⟨fragments, hgather, ?_⟩
  dsimp only at h
  cases hartifact : artifactOf fragments with
  | error e' =>
    rw [hartifact] at h
    cases h
    exact artifactOf_eq_mergeError hartifact
  | ok artifact =>
    rw [hartifact] at h
    cases hout : o.output with
    | none =>
      rw [hout] at h
      cases h
    | some path =>
      rw [hout] at h
      rcases (sees_andThen_error (g := id) _).mp h with ⟨_, hwrite, rfl⟩ | ⟨_, -, h⟩
      · rcases (sees_andThen_error _).mp hwrite with ⟨_, -, h⟩ | ⟨_, -, h⟩
        · cases h
        · cases h
      · cases h

end

/-- **Local files and a remote schema file always merge.** What a pattern and a path load, in this order, merges; so a run
whose remote schema is such a file never fails to merge. In any run where the merge fails, all local fragments contribute,
the remote one does not, and it is its address or path that the error names. -/
theorem loaded_merges (w : World) :
    (∀ (base : Path) (pattern : String) (path : Path) (fragments : List Fragment) (remote : Fragment),
      w.sees (loadLocal base pattern) = .ok fragments → w.sees (loadFile path) = .ok remote →
        ∃ text, mergeFragments (fragments ++ [remote]) = .ok text) ∧
    (∀ (o : RunOptions) (path : Path), RemoteSource.ofText o.remote o.insecure = .file path →
      isStoredResult path = false → ∀ e, w.sees (introspectSchema o) ≠ .error (.merge e)) ∧
    ∀ (o : RunOptions) (e : MergeError), w.sees (introspectSchema o) = .error (.merge e) →
      ∃ fragments remote, w.sees (gather o) = .ok (fragments ++ [remote]) ∧
        (∀ f ∈ fragments, ∃ doc, Contributes f doc) ∧ (¬∃ doc, Contributes remote doc) ∧
        remote.source = o.remote ∧ e.source = o.remote := by
  have hmerges : ∀ (base : Path) (pattern : String) (path : Path) (fragments : List Fragment) (remote : Fragment),
      w.sees (loadLocal base pattern) = .ok fragments → w.sees (loadFile path) = .ok remote →
        ∃ text, mergeFragments (fragments ++ [remote]) = .ok text := by
    intro base pattern path fragments remote hlocal hfile
    refine mergeFragments_of_contributes fun f hf => ?_
    rcases List.mem_append.mp hf with hf | hf
    · exact contributes_of_loadLocal w hlocal f hf
    · exact List.mem_singleton.mp hf ▸ contributes_of_loadFile w hfile
  refine ⟨hmerges, fun o path hsource hstored e hrun => ?_, fun o e hrun => ?_⟩
  · obtain ⟨fragments, hgather, hmerge⟩ := gather_of_mergeError w hrun
    obtain ⟨found, hlocal, remote, hremote, rfl⟩ := (sees_gather w).mp hgather
    rw [hsource] at hremote
    obtain ⟨loaded, hloaded, hsame⟩ := ((looks_loadStatic path).sees_andThen w).mp hremote
    cases hsame
    rw [loadStatic, if_neg (by simp [hstored])] at hloaded
    obtain ⟨text, htext⟩ := hmerges _ _ _ _ _ hlocal hloaded
    rw [hmerge] at htext
    cases htext
  · obtain ⟨fragments, hgather, hmerge⟩ := gather_of_mergeError w hrun
    obtain ⟨found, hlocal, remote, hremote, rfl⟩ := (sees_gather w).mp hgather
    have hfound := contributes_of_loadLocal w hlocal
    obtain ⟨hnone, he⟩ := mergeFragments_concat_error hfound hmerge
    have hname := (source_of_fetchRemote w hremote).trans (describe_ofText _ _)
    exact ⟨found, remote, hgather, hfound, hnone, hname, he.trans hname⟩

/-- The error of the merge, if a run failed to merge. -/
def mergeError? : Except SchemaError String → Option MergeError
  | .error (.merge e) => some e
  | _ => none

theorem eq_of_mergeError? : ∀ {result : Except SchemaError String} {e : MergeError},
    mergeError? result = some e → result = .error (.merge e)
  | .error (.merge _), _, rfl => rfl

/-- A project with a schema file in a directory below, and a stored result whose only type has a name that is none. -/
def misnamed : World where
  files := .dir [("p", .dir [("a.graphql", .file "type Query \x7b a: Int \x7d".toUTF8)]), ("r.json", .file
    "\x7b\"__schema\": \x7b\"types\": [\x7b\"kind\": \"SCALAR\", \"name\": \"1\"\x7d], \"directives\": []\x7d\x7d".toUTF8)]
  network _ := .error "no network"

/-- A run on the schema file of the project, with a remote schema. -/
def misnamedOptions (remote : String) : RunOptions where
  remote := remote
  pattern := "*.graphql"
  output := none
  insecure := false
  base := "p"
  client := {}

theorem loaded_merges_misnamed :
    (∃ fragments remote text, misnamed.sees (loadLocal "p" "*.graphql") = .ok fragments ∧
      misnamed.sees (loadFile "p/a.graphql") = .ok remote ∧ mergeFragments (fragments ++ [remote]) = .ok text) ∧
    (∀ e, misnamed.sees (introspectSchema (misnamedOptions "p/a.graphql")) ≠ .error (.merge e)) ∧
    ∃ e, misnamed.sees (introspectSchema (misnamedOptions "r.json")) = .error (.merge e) ∧ e.source = "r.json" := by
  obtain ⟨hmerges, hnever, hnames⟩ := loaded_merges misnamed
  have hfacts : (misnamed.sees (loadLocal "p" "*.graphql")).toOption.isSome = true ∧
      (misnamed.sees (loadFile "p/a.graphql")).toOption.isSome = true ∧
      isStoredResult "p/a.graphql" = false ∧
      (mergeError? (misnamed.sees (introspectSchema (misnamedOptions "r.json")))).isSome = true := by
    decide +kernel
  obtain ⟨hlocal, hfile, hschema, hfails⟩ := hfacts
  obtain ⟨fragments, hfragments⟩ := Option.isSome_iff_exists.mp hlocal
  obtain ⟨remote, hremote⟩ := Option.isSome_iff_exists.mp hfile
  obtain ⟨text, htext⟩ := hmerges _ _ _ _ _ (eq_ok_of_toOption hfragments) (eq_ok_of_toOption hremote)
  refine ⟨⟨fragments, remote, text, eq_ok_of_toOption hfragments, eq_ok_of_toOption hremote, htext⟩, ?_, ?_⟩
  · exact hnever (misnamedOptions "p/a.graphql") "p/a.graphql" rfl hschema
  · obtain ⟨e, he⟩ := Option.isSome_iff_exists.mp hfails
    obtain ⟨-, -, -, -, -, -, hsource⟩ := hnames _ _ (eq_of_mergeError? he)
    exact ⟨e, eq_of_mergeError? he, hsource⟩

end SchemaWeave
