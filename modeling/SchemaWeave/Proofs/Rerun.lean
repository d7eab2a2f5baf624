import SchemaWeave.Proofs.Files.Search
import SchemaWeave.Proofs.Merge

/-!
# A run that is run again

A run that has written its output is run again on what it left behind. If no local file is the output and the remote
schema is none either, the second run finds the same files (`Wrote.old_paths`: none of those found is new), reads the same
texts (`Wrote.loadPaths`, `Wrote.loadStatic`), asks the server the same, and so writes what is there already
(`introspectSchema_again`).
-/

namespace SchemaWeave

open Files FileTree Http Introspection

/-! ## What a run sees -/

section

variable (w : World)

theorem sees_gather {o : RunOptions} {fragments : List Fragment} : w.sees (gather o) = .ok fragments ↔
    ∃ found, w.sees (loadLocal o.base o.pattern) = .ok found ∧
      ∃ remote, w.sees (fetchRemote o.client (RemoteSource.ofText o.remote o.insecure)) = .ok remote ∧
        found ++ [remote] = fragments := by
  refine ((looks_loadLocal _ _).sees_andThen w).trans ?_
  refine exists_congr fun found => and_congr_right fun _ => ?_
  refine (sees_andThen w).trans ?_
  simp [sees_pure]

theorem sees_loadLocal {base : Path} {pattern : String} {fragments : List Fragment} :
    w.sees (loadLocal base pattern) = .ok fragments ↔
      ∃ found, w.sees (Glob.paths (patternBelow base pattern)) = .ok found ∧
        w.sees (loadPaths found) = .ok fragments ∧ fragments ≠ [] := by
  refine ((looks_paths _).sees_andThen w).trans ?_
  refine exists_congr fun found => and_congr_right fun _ => ?_
  refine ((looks_loadPaths found).sees_andThen w).trans ?_
  constructor
  · rintro ⟨_ | ⟨first, rest⟩, hload, h⟩
    · cases h
    · cases h
      exact ⟨hload, List.cons_ne_nil _ _⟩
  · rintro ⟨hload, hne⟩
    cases fragments with
    | nil => exact absurd rfl hne
    | cons first rest => exact ⟨first :: rest, hload, rfl⟩

theorem sees_loadPaths_cons {p : Path} {found : Glob.Found} {fragments : List Fragment} :
    w.sees (loadPaths (.ok p :: found)) = .ok fragments ↔
      if w.sees (Host.isDir p) = true then w.sees (loadPaths found) = .ok fragments
      else ∃ first, w.sees (loadFile p) = .ok first ∧
        ∃ rest, w.sees (loadPaths found) = .ok rest ∧ first :: rest = fragments := by
  rw [loadPaths, sees_bind w (looks_isDir p)]
  split
  · exact Iff.rfl
  · refine ((looks_loadFile p).sees_andThen w).trans ?_
    refine exists_congr fun first => and_congr_right fun _ => ?_
    refine ((looks_loadPaths found).sees_andThen w).trans ?_
    simp [sees_pure]

/-- Paths are loaded one by one, without the directories among them. -/
theorem forall₂_of_loadPaths {found : Glob.Found} {fragments : List Fragment}
    (h : w.sees (loadPaths found) = .ok fragments) : ∃ paths : List Path, found = paths.map .ok ∧
      List.Forall₂ (fun p f => w.sees (loadFile p) = .ok f) (paths.filter fun p => !w.sees (Host.isDir p)) fragments := by
  induction found generalizing fragments with
  | nil =>
    cases h
    exact ⟨[], rfl, .nil⟩
  | cons first found ih =>
    cases first with
    | error e => cases h
    | ok p =>
      rw [sees_loadPaths_cons] at h
      split at h
      · next hdir =>
        obtain ⟨paths, rfl, hpaths⟩ := ih h
        exact ⟨p :: paths, rfl, by rwa [List.filter_cons_of_neg (by simp [hdir])]⟩
      · next hdir =>
        obtain ⟨f, hf, rest, hrest, rfl⟩ := h
        obtain ⟨paths, rfl, hpaths⟩ := ih hrest
        exact ⟨p :: paths, rfl, by rw [List.filter_cons_of_pos (by simp [hdir])]; exact .cons hf hpaths⟩

theorem error_notMem_of_loadPaths {found : Glob.Found} {fragments : List Fragment}
    (h : w.sees (loadPaths found) = .ok fragments) (e : GlobError) : .error e ∉ found := by
  obtain ⟨paths, rfl, -⟩ := forall₂_of_loadPaths w h
  simp

end

/-! ## What the written file changes -/

section

variable {w w' : World} {out : Path} {parent : Place} {last : String} (h : Wrote w w' out parent last)

include h

/-- What is found without the new file does not lead to it. -/
theorem Wrote.not_fresh_of_find {p : Path} {t : FileTree} (hp : w.files.find w.current p = .ok t) :
    ¬w.Fresh w' (parent ++ [last]) p := by
  rintro ⟨hnone, hfresh⟩
  obtain ⟨content, hfiles⟩ := h.files
  obtain ⟨-, r, hr, hget⟩ := find_eq_ok.mp hp
  rw [h.place.leads_after hfiles hr] at hfresh
  cases hfresh
  rw [hnone] at hget
  cases hget

/-- Another file has the same text. -/
theorem Wrote.readText {p : Path} (hp : leads w'.files w'.current p ≠ .ok (parent ++ [last])) {text : String}
    (htext : w.sees (Host.readText p) = .ok text) : w'.sees (Host.readText p) = .ok text := by
  obtain ⟨content, hfiles⟩ := h.files
  have hbytes := read_eq_ok.mp ((sees_readText w).mp htext)
  obtain ⟨bytes', hbytes', hsame⟩ := h.place.find_file hfiles hbytes
  rw [h.current] at hp
  rw [hsame hp] at hbytes'
  exact (sees_readText w').mpr (read_eq_ok.mpr (h.current ▸ hbytes'))

theorem Wrote.loadFile {p : Path} (hp : leads w'.files w'.current p ≠ .ok (parent ++ [last])) {fragment : Fragment}
    (hload : w.sees (loadFile p) = .ok fragment) : w'.sees (SchemaWeave.loadFile p) = .ok fragment := by
  obtain ⟨text, htext, hrest⟩ := ((looks_readText p).sees_andThen w).mp hload
  refine ((looks_readText p).sees_andThen w').mpr ⟨text, h.readText hp htext, ?_⟩
  rw [← hrest]
  dsimp only
  split
  · rfl
  · split <;> rfl

theorem Wrote.loadStatic {p : Path} (hp : leads w'.files w'.current p ≠ .ok (parent ++ [last])) {fragment : Fragment}
    (hload : w.sees (loadStatic p) = .ok fragment) : w'.sees (SchemaWeave.loadStatic p) = .ok fragment := by
  rw [SchemaWeave.loadStatic] at hload ⊢
  split
  · next hstored =>
    rw [if_pos hstored] at hload
    obtain ⟨text, htext, hrest⟩ := ((looks_readText p).sees_andThen w).mp hload
    refine ((looks_readText p).sees_andThen w').mpr ⟨text, h.readText hp htext, ?_⟩
    rw [← hrest]
    dsimp only
    split <;> rfl
  · next hstored =>
    rw [if_neg hstored] at hload
    exact h.loadFile hp hload

/-- By induction on the paths: each is a directory in both worlds, or a file with the same text. -/
theorem Wrote.loadPaths {found : Glob.Found}
    (hfound : ∀ p, .ok p ∈ found → leads w'.files w'.current p ≠ .ok (parent ++ [last])) {fragments : List Fragment}
    (hload : w.sees (loadPaths found) = .ok fragments) : w'.sees (SchemaWeave.loadPaths found) = .ok fragments := by
  induction found generalizing fragments with
  | nil => exact hload
  | cons first found ih =>
    cases first with
    | error e => exact nomatch hload
    | ok p =>
      have hrest := fun q hq => hfound q (List.mem_cons_of_mem _ hq)
      rw [sees_loadPaths_cons] at hload ⊢
      rw [h.isDir]
      split
      · next hdir =>
        rw [if_pos hdir] at hload
        exact ih hrest hload
      · next hdir =>
        rw [if_neg hdir] at hload
        obtain ⟨fragment, hfile, others, hothers, he⟩ := hload
        exact ⟨fragment, h.loadFile (hfound p List.mem_cons_self) hfile, others, ih hrest hothers, he⟩

/-- What has been loaded is not new. -/
theorem Wrote.old_of_loadPaths {found : Glob.Found} {fragments : List Fragment}
    (hload : w.sees (SchemaWeave.loadPaths found) = .ok fragments) : w.old w' (parent ++ [last]) found = found := by
  induction found generalizing fragments with
  | nil => rfl
  | cons first found ih =>
    cases first with
    | error e => exact nomatch hload
    | ok p =>
      have hstep : ¬w.Fresh w' (parent ++ [last]) p ∧ ∃ others, w.sees (SchemaWeave.loadPaths found) = .ok others := by
        rw [sees_loadPaths_cons] at hload
        split at hload
        · next hdir =>
          obtain ⟨es, hes⟩ := (sees_isDir w).mp hdir
          exact ⟨h.not_fresh_of_find hes, fragments, hload⟩
        · obtain ⟨fragment, hfile, others, hothers, -⟩ := hload
          obtain ⟨text, htext, -⟩ := ((looks_readText p).sees_andThen w).mp hfile
          have hbytes := read_eq_ok.mp ((sees_readText w).mp htext)
          exact ⟨h.not_fresh_of_find hbytes, others, hothers⟩
      obtain ⟨hold, others, hothers⟩ := hstep
      have htail := ih hothers
      rw [World.old] at htail ⊢
      rw [List.filter_cons_of_pos (by simp [hold]), htail]

/-- Two paths that lead to the same place, whatever their lengths. -/
def World.SamePlace (w : World) (p q : Path) : Prop :=
  ∃ place, leads w.files w.current p = .ok place ∧ leads w.files w.current q = .ok place

/-- A name, and a way to it through other directories. -/
example : (leads (.dir [("p", .dir [("a", .file .empty)]), ("q", .dir [])]) ["p"] "a").toOption =
    (leads (.dir [("p", .dir [("a", .file .empty)]), ("q", .dir [])]) ["p"] "../q//./../p/a").toOption := by
  decide +kernel

theorem Wrote.samePlace {p : Path} (hp : leads w'.files w'.current p = .ok (parent ++ [last])) : w'.SamePlace p out := by
  obtain ⟨content, hfiles⟩ := h.files
  refine ⟨parent ++ [last], hp, ?_⟩
  rw [h.current]
  exact h.place.leads_out hfiles

/-- **The local files are loaded as before**, if the written one is none of them. -/
theorem Wrote.loadLocal {base : Path} {pattern : String}
    (hout : ∀ found, w'.sees (Glob.paths (patternBelow base pattern)) = .ok found → ∀ p, .ok p ∈ found →
      ¬w'.SamePlace p out) {fragments : List Fragment} (hload : w.sees (loadLocal base pattern) = .ok fragments) :
    w'.sees (SchemaWeave.loadLocal base pattern) = .ok fragments := by
  obtain ⟨found, hfound, hfragments, hne⟩ := (sees_loadLocal w).mp hload
  have hpaths := h.old_paths fun found' hfound' e => by
    cases hfound.symm.trans hfound'
    exact error_notMem_of_loadPaths w hfragments e
  cases hfound' : w'.sees (Glob.paths (patternBelow base pattern)) with
  | error e =>
    rw [hfound, hfound'] at hpaths
    cases hpaths
  | ok found' =>
    have hother : ∀ p, .ok p ∈ found' → leads w'.files w'.current p ≠ .ok (parent ++ [last]) :=
      fun p hp hleads => hout found' hfound' p hp (h.samePlace hleads)
    have hold' : w.old w' (parent ++ [last]) found' = found' := by
      refine List.filter_eq_self.mpr fun r hr => ?_
      cases r with
      | error e => rfl
      | ok p =>
        have hfresh : ¬w.Fresh w' (parent ++ [last]) p := fun hp => hother p hr (h.current ▸ hp.2)
        simp [hfresh]
    have hsame : found' = found := by
      rw [hfound, hfound'] at hpaths
      have hkept := Except.ok.inj hpaths
      rwa [hold', h.old_of_loadPaths hfragments] at hkept
    exact (sees_loadLocal w').mpr ⟨found', hfound', hsame ▸ h.loadPaths (hsame ▸ hother) hfragments, hne⟩

end

/-! ## The server -/

/-- In the same network the same request leads to the same response. -/
theorem sees_follow_congr (library : Library) : ∀ (hops : Nat) (r : Http.Request) {w w' : World},
    w'.network = w.network → w'.sees (follow library hops r) = w.sees (follow library hops r)
  | hops, r, w, w', hnetwork => by
    rw [Introspection.follow.eq_def, World.sees, World.sees, run_bind, run_bind, run_exchange, run_exchange, hnetwork]
    cases w.network r with
    | error reason => rfl
    | ok response =>
      dsimp only
      cases library.redirect r.toMessage response with
      | stay => rfl
      | refused reason => rfl
      | go message =>
        cases hops with
        | zero => rfl
        | succ hops => exact sees_follow_congr library hops (r.next message) rfl

/-- A server that answers every request in the same way gives the same schema. -/
theorem sees_fetchSdl_congr {w w' : World} (hnetwork : w'.network = w.network) (hlibrary : w'.library = w.library)
    (c : Client) (e : Endpoint) : w'.sees (c.fetchSdl e) = w.sees (c.fetchSdl e) := by
  have hpost : w'.sees (c.post e) = w.sees (c.post e) := by
    rw [World.sees, World.sees, run_post, run_post, hlibrary, Client.postWith]
    cases c.request? w.library e with
    | none => rfl
    | some request =>
      exact sees_bind_congr (sees_follow_congr _ _ request hnetwork) fun r _ _ => by cases r <;> rfl
  have hfetch : w'.sees (c.fetch e) = w.sees (c.fetch e) := sees_bind_congr hpost fun r _ _ => by cases r <;> rfl
  exact sees_bind_congr hfetch fun r _ _ => by cases r <;> rfl

/-- The remote schema is loaded as before, if it does not stand in the written file. -/
theorem Wrote.fetchRemote {w w' : World} {out : Path} {parent : Place} {last : String} (h : Wrote w w' out parent last)
    (hnetwork : w'.network = w.network) (hlibrary : w'.library = w.library) (client : Client) {source : RemoteSource}
    (hsource : ∀ p, source = .file p → ¬w'.SamePlace p out) {fragment : Fragment}
    (hload : w.sees (fetchRemote client source) = .ok fragment) :
    w'.sees (SchemaWeave.fetchRemote client source) = .ok fragment := by
  cases source with
  | url endpoint =>
    rw [← hload]
    exact sees_bind_congr (sees_fetchSdl_congr hnetwork hlibrary client endpoint) fun r _ _ => by cases r <;> rfl
  | file p =>
    obtain ⟨loaded, hloaded, hrest⟩ := ((looks_loadStatic p).sees_andThen w).mp hload
    have hother : leads w'.files w'.current p ≠ .ok (parent ++ [last]) := fun hp => hsource p rfl (h.samePlace hp)
    exact ((looks_loadStatic p).sees_andThen w').mpr ⟨loaded, h.loadStatic hother hloaded, hrest⟩

/-! ## The run -/

/-- A run with an output succeeds if all is gathered, the artifact is made, and the output may be written. -/
theorem sees_introspectSchema {o : RunOptions} {path : Path} (hout : o.output = some path) (w : World)
    {artifact : String} : w.sees (introspectSchema o) = .ok artifact ↔ ∃ fragments, w.sees (gather o) = .ok fragments ∧
      artifactOf fragments = .ok artifact ∧ ∃ place, locateForWriting w.files w.current path = .ok place := by
  refine (sees_andThen w).trans ?_
  refine exists_congr fun fragments => and_congr_right fun _ => ?_
  obtain ⟨hfiles, hcurrent⟩ := keeps_gather o w
  generalize ((gather o : StateM World _).run w).2 = v at hfiles hcurrent
  have hwrite : ∀ text, v.sees (writeOutput path text) = .ok () ↔
      ∃ place, locateForWriting w.files w.current path = .ok place := by
    intro text
    rw [← hfiles, ← hcurrent]
    simp only [World.sees, writeOutput, Host.writeFile, StateT.run_bind, StateT.run_get, pure_bind, FileTree.write]
    cases locateForWriting v.files v.current path with
    | error e =>
      constructor
      · intro h
        cases h
      · rintro ⟨_, h⟩
        cases h
    | ok place => exact ⟨fun _ => ⟨place, rfl⟩, fun _ => rfl⟩
  dsimp only
  rw [hout]
  cases artifactOf fragments with
  | error e =>
    constructor
    · intro h
      cases h
    · intro h
      cases h.1
  | ok made =>
    refine (sees_andThen v).trans ?_
    rw [← hwrite made, and_comm]
    constructor
    · rintro ⟨_, hwritten, h⟩
      exact ⟨hwritten, h⟩
    · rintro ⟨hwritten, h⟩
      exact ⟨(), hwritten, h⟩

/-- **A run that is run again writes what it wrote.** If a run succeeds, and on the files that it leaves behind the pattern
matches no path to the output, nor is the output the file of the remote schema, then a second run with the same options
gives the same artifact and leaves all files as they are. The network of a world answers a request in the same way every
time. -/
theorem introspectSchema_again {o : RunOptions} {path : Path} (hout : o.output = some path) {w w' : World}
    {artifact : String} (hrun : (introspectSchema o : StateM World _).run w = (.ok artifact, w'))
    (hlocal : ∀ found, w'.sees (Glob.paths (patternBelow o.base o.pattern)) = .ok found →
      ∀ p, .ok p ∈ found → ¬w'.SamePlace p path)
    (hremote : ∀ p, RemoteSource.ofText o.remote o.insecure = .file p → ¬w'.SamePlace p path) :
    ∃ w'', (introspectSchema o : StateM World _).run w' = (.ok artifact, w'') ∧ w''.files = w'.files := by
  obtain ⟨sent, hleaves⟩ := introspectSchema_leaves o w
  simp only [hrun, hout] at hleaves
  obtain ⟨parent, last, hplace, hw'⟩ := hleaves
  have hput : w'.files = .put (.file artifact.toUTF8) (parent ++ [last]) w.files := by rw [hw']
  have hcurrent : w'.current = w.current := by rw [hw']
  have hnetwork : w'.network = w.network := by rw [hw']
  have hlibrary : w'.library = w.library := by rw [hw']
  have hwrote : Wrote w w' path parent last := ⟨hplace, ⟨_, hput⟩, hcurrent⟩
  have hplace' : WritesAt w'.files w'.current path parent last := by
    rw [hput, hcurrent]
    exact hplace.again _
  -- the second run gathers what the first one did, and so makes and writes the same artifact
  obtain ⟨fragments, hgather, hartifact, -⟩ := (sees_introspectSchema hout w).mp (congrArg Prod.fst hrun)
  obtain ⟨found, hfound, remote, hfetched, hall⟩ := (sees_gather w).mp hgather
  have hgather' : w'.sees (gather o) = .ok fragments := (sees_gather w').mpr
    ⟨found, hwrote.loadLocal hlocal hfound, remote, hwrote.fetchRemote hnetwork hlibrary o.client hremote hfetched, hall⟩
  have hagain : w'.sees (introspectSchema o) = .ok artifact :=
    (sees_introspectSchema hout w').mpr ⟨fragments, hgather', hartifact, _, hplace'.locateForWriting⟩
  have hrun' : (introspectSchema o : StateM World _).run w' =
      (.ok artifact, ((introspectSchema o : StateM World _).run w').2) := Prod.ext hagain rfl
  refine ⟨_, hrun', ?_⟩
  obtain ⟨sent', hleaves'⟩ := introspectSchema_leaves o w'
  rw [hrun'] at hleaves'
  simp only [hout] at hleaves'
  obtain ⟨parent', last', hplace'', hw''⟩ := hleaves'
  have hwhere : parent' ++ [last'] = parent ++ [last] :=
    Except.ok.inj (hplace''.locateForWriting.symm.trans hplace'.locateForWriting)
  rw [hw'', hwhere, hput, put_put]

/-- A project with a schema file in a directory below, and a remote schema in a file elsewhere. -/
def project : World where
  files := .dir [("p", .dir [("schemas", .dir [("a.graphql", .file "type Query \x7b a: Int \x7d".toUTF8)])]),
    ("q", .dir [("remote.graphqls", .file "type B \x7b b: Query \x7d".toUTF8)])]
  network _ := .error "no network"

/-- The output goes into the directory of the schema file, where the pattern does not match it. -/
def projectOptions : RunOptions where
  remote := "q/remote.graphqls"
  pattern := "*/a.graphql"
  output := some "p/schemas/schema.json"
  insecure := false
  base := "/p"
  client := {}

theorem introspectSchema_again_project : ∃ artifact w' w'',
    (introspectSchema projectOptions : StateM World _).run project = (.ok artifact, w') ∧
      (introspectSchema projectOptions : StateM World _).run w' = (.ok artifact, w'') ∧ w''.files = w'.files := by
  have hfacts : (project.sees (introspectSchema projectOptions)).toOption.isSome = true ∧
      (((introspectSchema projectOptions : StateM World _).run project).2.sees
        (Glob.paths (patternBelow "/p" "*/a.graphql"))).toOption.map (·.map Except.toOption) =
        some [some "/p/schemas/a.graphql"] ∧
      ∀ p ∈ ["/p/schemas/a.graphql", "q/remote.graphqls"],
        leads ((introspectSchema projectOptions : StateM World _).run project).2.files
          ((introspectSchema projectOptions : StateM World _).run project).2.current p ≠
        leads ((introspectSchema projectOptions : StateM World _).run project).2.files
          ((introspectSchema projectOptions : StateM World _).run project).2.current "p/schemas/schema.json" := by
    decide +kernel
  obtain ⟨hsome, hpaths, hother⟩ := hfacts
  obtain ⟨artifact, hartifact⟩ := Option.isSome_iff_exists.mp hsome
  have hrun : (introspectSchema projectOptions : StateM World _).run project =
      (.ok artifact, ((introspectSchema projectOptions : StateM World _).run project).2) :=
    Prod.ext (eq_ok_of_toOption hartifact) rfl
  generalize ((introspectSchema projectOptions : StateM World _).run project).2 = w' at hrun hpaths hother
  have hplace : ∀ p ∈ ["/p/schemas/a.graphql", "q/remote.graphqls"], ¬w'.SamePlace p "p/schemas/schema.json" :=
    fun p hp ⟨_, hleads, hout⟩ => hother p hp (hleads.trans hout.symm)
  have hlocal : ∀ found, w'.sees (Glob.paths (patternBelow "/p" "*/a.graphql")) = .ok found →
      ∀ p, .ok p ∈ found → ¬w'.SamePlace p "p/schemas/schema.json" := by
    intro found hfound p hp
    rw [hfound] at hpaths
    have hmap : found.map Except.toOption = [some "/p/schemas/a.graphql"] := Option.some.inj hpaths
    have hmem : some p ∈ found.map Except.toOption := List.mem_map_of_mem hp
    rw [hmap, List.mem_singleton] at hmem
    exact hplace p (by simp [Option.some.inj hmem])
  have hremote : ∀ p, RemoteSource.ofText "q/remote.graphqls" false = .file p →
      ¬w'.SamePlace p "p/schemas/schema.json" := by
    intro p hp
    have hsource : RemoteSource.ofText "q/remote.graphqls" false = .file "q/remote.graphqls" := by decide
    rw [hsource] at hp
    cases hp
    exact hplace _ (by simp)
  obtain ⟨w'', hagain, hfiles⟩ := introspectSchema_again rfl hrun hlocal hremote
  exact ⟨artifact, w', w'', hrun, hagain, hfiles⟩

end SchemaWeave
