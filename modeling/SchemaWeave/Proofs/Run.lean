import Mathlib.Data.List.Chain
import SchemaWeave.Proofs.Files.Tree
import SchemaWeave.Run.Pipeline

/-!
# A run writes all or nothing

Every stage of a run before the last leaves the files as they are (`keeps_gather`): searching for a pattern and loading
only look at the world (`looks_paths`, `looks_loadLocal`), and asking a server does no more than note a request and those
that the responses lead to (`run_follow`, `asks_fetchRemote`). So a run that fails leaves all but the requests as it was, and one that succeeds
also leaves the artifact at its output (`introspectSchema_leaves`), and no other file has changed (`introspectSchema_files`).
-/

namespace SchemaWeave

open Files Http Introspection

/-- A computation that leaves the files and the working directory as they are. -/
def Keeps {α : Type} (x : StateM World α) : Prop :=
  ∀ w, (x.run w).2.files = w.files ∧ (x.run w).2.current = w.current

/-! ## Computations -/

theorem run_bind {α β : Type} (x : StateM World α) (f : α → StateM World β) (w : World) :
    (x >>= f).run w = (f (x.run w).1).run (x.run w).2 := rfl

theorem run_pure {α : Type} (a : α) (w : World) : (pure a : StateM World α).run w = (a, w) := rfl

/-- A computation that leaves the world as it is. -/
def Looks {α : Type} (x : StateM World α) : Prop := ∀ w, (x.run w).2 = w

/-- A computation that leaves the world as it is, up to the requests that were sent. -/
def Asks {α : Type} (x : StateM World α) : Prop := ∀ w, ∃ sent, (x.run w).2 = { w with sent }

section

variable {ε α β : Type} {x : StateM World α} {f : α → StateM World β}

theorem Looks.pure (a : α) : Looks (Pure.pure a) := fun _ => rfl

theorem Looks.bind (hx : Looks x) (hf : ∀ a, Looks (f a)) : Looks (x >>= f) :=
  fun w => (hf _ _).trans (hx w)

theorem Looks.mapM {f : α → StateM World β} {l : List α} (h : ∀ a ∈ l, Looks (f a)) : Looks (l.mapM f) := by
  induction l with
  | nil => exact Looks.pure _
  | cons a l ih =>
    rw [List.mapM_cons]
    refine (h a List.mem_cons_self).bind fun _ => ?_
    refine Looks.bind (ih fun b hb => h b (List.mem_cons_of_mem a hb)) fun _ => ?_
    exact Looks.pure _

/-- A stage that stops at an error, or goes on with what it got. -/
theorem Looks.andThen {x : StateM World (Except ε α)} {f : Except ε α → StateM World β} (hx : Looks x)
    (herror : ∀ e, Looks (f (.error e))) (hok : ∀ a, Looks (f (.ok a))) : Looks (x >>= f) := by
  refine hx.bind fun r => ?_
  cases r with
  | error e => exact herror e
  | ok a => exact hok a

theorem Looks.asks (hx : Looks x) : Asks x := fun w => ⟨w.sent, hx w⟩

theorem Asks.pure (a : α) : Asks (Pure.pure a) := (Looks.pure a).asks

/-- What asks for more when it has only looked. -/
theorem Looks.bindAsks (hx : Looks x) (hf : ∀ a, Asks (f a)) : Asks (x >>= f) := by
  intro w
  rw [run_bind, hx w]
  exact hf _ w

/-- What stops at an error without asking for more, or goes on with what it got. -/
theorem Asks.andThen {x : StateM World (Except ε α)} {f : Except ε α → StateM World β} (hx : Asks x)
    (herror : ∀ e, Asks (f (.error e))) (hok : ∀ a, Asks (f (.ok a))) : Asks (x >>= f) := by
  intro w
  obtain ⟨sent, hsent⟩ := hx w
  rw [run_bind, hsent]
  cases (x.run w).1 with
  | error e =>
    obtain ⟨sent', hsent'⟩ := herror e { w with sent }
    exact ⟨sent', hsent'⟩
  | ok a =>
    obtain ⟨sent', hsent'⟩ := hok a { w with sent }
    exact ⟨sent', hsent'⟩

theorem Asks.keeps (hx : Asks x) : Keeps x := by
  intro w
  obtain ⟨sent, hsent⟩ := hx w
  rw [hsent]
  exact ⟨rfl, rfl⟩

end

/-! ## What a computation gives -/

/-- What a computation gives on a world. -/
def World.sees {α : Type} (w : World) (x : StateM World α) : α := (x.run w).1

section

variable {ε ε' α β : Type} (w : World)

theorem sees_pure (a : α) : w.sees (pure a) = a := rfl

theorem sees_bind {x : StateM World α} (hx : Looks x) (f : α → StateM World β) :
    w.sees (x >>= f) = w.sees (f (w.sees x)) := by
  rw [World.sees, run_bind, hx w]
  rfl

theorem sees_mapM {f : α → StateM World β} (hf : ∀ a, Looks (f a)) (l : List α) :
    w.sees (l.mapM f) = l.map fun a => w.sees (f a) := by
  induction l with
  | nil => rfl
  | cons a l ih =>
    rw [List.mapM_cons, sees_bind w (hf a), sees_bind w (Looks.mapM fun b _ => hf b), ih]
    rfl

/-- What follows on the same result, and looks at no world, gives the same. -/
theorem sees_bind_congr {w w' : World} {x : StateM World α} {f : α → StateM World β} (hx : w'.sees x = w.sees x)
    (hf : ∀ a v v', World.sees v' (f a) = World.sees v (f a)) : w'.sees (x >>= f) = w.sees (x >>= f) := by
  have hbind (v : World) : v.sees (x >>= f) = (x.run v).2.sees (f (v.sees x)) := rfl
  rw [hbind, hbind, hx]
  exact hf _ _ _

/-- Two stages succeed if the second does on what the first gives and leaves; a failure of the first ends both. -/
theorem sees_andThen {x : StateM World (Except ε α)} {f : Except ε α → StateM World (Except ε' β)}
    (herror : ∀ e, ∃ e', f (.error e) = pure (.error e') := by exact fun _ => ⟨_, rfl⟩) {b : β} :
    w.sees (x >>= f) = .ok b ↔ ∃ a, w.sees x = .ok a ∧ (x.run w).2.sees (f (.ok a)) = .ok b := by
  rw [World.sees, run_bind, World.sees]
  cases (x.run w).1 with
  | error e =>
    obtain ⟨e', he'⟩ := herror e
    rw [he', run_pure]
    simp
  | ok a => simp [World.sees]

/-- Two stages, of which the first only looks. -/
theorem Looks.sees_andThen {x : StateM World (Except ε α)} (hx : Looks x)
    {f : Except ε α → StateM World (Except ε' β)}
    (herror : ∀ e, ∃ e', f (.error e) = Pure.pure (.error e') := by exact fun _ => ⟨_, rfl⟩) {b : β} :
    w.sees (x >>= f) = .ok b ↔ ∃ a, w.sees x = .ok a ∧ w.sees (f (.ok a)) = .ok b := by
  rw [SchemaWeave.sees_andThen w herror, hx w]

end

/-! ## Looking at the files -/

theorem looks_isDir (p : Path) : Looks (Host.isDir p) := by
  intro w
  simp only [Host.isDir, StateT.run_bind, StateT.run_get, pure_bind]
  cases w.files.find w.current p <;> rfl

theorem looks_isFile (p : Path) : Looks (Host.isFile p) := by
  intro w
  simp only [Host.isFile, StateT.run_bind, StateT.run_get, pure_bind]
  cases w.files.find w.current p <;> rfl

theorem looks_entries (p : Path) : Looks (Host.entries p) := fun _ => rfl

theorem looks_readFile (p : Path) : Looks (Host.readFile p) := fun _ => rfl

theorem looks_pathExists (p : Path) : Looks (Host.pathExists p) := by
  refine (looks_isDir p).bind fun b => ?_
  cases b with
  | true => exact Looks.pure true
  | false => exact looks_isFile p

/-- Bytes decode to a text exactly if they are its encoding. -/
theorem fromUTF8?_eq_some {bytes : ByteArray} {text : String} :
    String.fromUTF8? bytes = some text ↔ bytes = text.toUTF8 := by
  rw [String.fromUTF8?]
  constructor
  · intro h
    split at h
    · cases h
      rfl
    · cases h
  · rintro rfl
    exact dif_pos text.isValidUTF8

theorem looks_readText (p : Path) : Looks (Host.readText p) := by
  refine (looks_readFile p).andThen (fun e => Looks.pure _) fun bytes => ?_
  dsimp only
  cases String.fromUTF8? bytes <;> exact Looks.pure _

theorem sees_readText (w : World) {p : Path} {text : String} :
    w.sees (Host.readText p) = .ok text ↔ w.files.read w.current p = .ok text.toUTF8 := by
  refine ((looks_readFile p).sees_andThen w).trans ?_
  constructor
  · rintro ⟨bytes, hread, h⟩
    cases hdecode : String.fromUTF8? bytes with
    | none =>
      simp only [hdecode] at h
      cases h
    | some found =>
      simp only [hdecode] at h
      cases h
      rw [← fromUTF8?_eq_some.mp hdecode]
      exact hread
  · intro hread
    refine ⟨_, hread, ?_⟩
    simp only [fromUTF8?_eq_some.mpr rfl]
    rfl

/-! ## Searching -/

section

variable {directoriesOnly : Bool}

theorem looks_ofPath (p : Path) : Looks (Glob.Spot.ofPath p) := (looks_isDir p).bind fun _ => Looks.pure _

mutual

theorem looks_descend : ∀ (bound : Nat) (patterns : List Pattern) (s : Glob.Spot),
    Looks (Glob.descend directoriesOnly bound patterns s)
  | _, [], _ => by rw [Glob.descend]; exact Looks.pure _
  | 0, _ :: _, _ => by rw [Glob.descend]; exact Looks.pure _
  | bound + 1, pattern :: patterns, s => by
    rw [Glob.descend]
    have honward (next : Path) : Looks (Glob.Spot.ofPath next >>= Glob.descend directoriesOnly bound patterns) :=
      (looks_ofPath next).bind fun t => looks_descend bound patterns t
    dsimp only
    split
    · refine (looks_pathExists _).bind fun b => ?_
      split
      · exact honward _
      · exact Looks.pure _
    · split
      · exact Looks.pure _
      · refine (looks_entries s.path).andThen (fun e => Looks.pure _) fun entries => ?_
        refine (Looks.mapM fun d _ => honward _).bind fun special => ?_
        exact (Looks.mapM fun e _ => looks_visit bound _ _ e.1).bind fun children => Looks.pure _

theorem looks_visit : ∀ (bound : Nat) (patterns : List Pattern) (s : Glob.Spot) (name : String),
    Looks (Glob.visit directoriesOnly bound patterns s name)
  | 0, _, _, _ => by rw [Glob.visit]; exact Looks.pure _
  | bound + 1, patterns, s, name => by
    rw [Glob.visit]
    generalize (patterns.head?.map Pattern.isRecursive).getD false = isRecursive
    dsimp only
    generalize (if isRecursive = true then Glob.dropRecursive patterns else patterns) = further
    have hbelow : ∀ here : Glob.Found, Looks
        (if (isRecursive && s.isDir) = true then do
          let below ← Glob.descend directoriesOnly bound ([.directories] :: further) s
          return here ++ below
        else do
          let below ← Pure.pure []
          return here ++ below) := by
      intro here
      split
      · exact (looks_descend bound _ s).bind fun below => Looks.pure _
      · exact Looks.pure _
    split
    · exact hbelow _
    · split
      · exact (looks_descend bound _ s).bind hbelow
      · exact hbelow []

end

end

theorem looks_paths (text : String) : Looks (Glob.paths text) := by
  rw [Glob.paths]
  split
  · exact Looks.pure _
  · split
    · exact Looks.pure _
    · exact (looks_ofPath _).bind fun start => (looks_descend _ _ start).bind fun found => Looks.pure _

/-! ## Loading -/

theorem looks_loadFile (path : Path) : Looks (loadFile path) := by
  refine (looks_readText path).andThen (fun e => Looks.pure _) fun sdl => ?_
  dsimp only
  split
  · exact Looks.pure _
  · split <;> exact Looks.pure _

theorem looks_loadPaths (found : List (Except GlobError Path)) : Looks (loadPaths found) := by
  induction found with
  | nil => exact Looks.pure _
  | cons first found ih =>
    cases first with
    | error e => exact Looks.pure _
    | ok path =>
      rw [loadPaths]
      refine (looks_isDir path).bind fun b => ?_
      cases b with
      | true => exact ih
      | false =>
        refine (looks_loadFile path).andThen (fun e => Looks.pure _) fun fragment => ?_
        exact ih.andThen (fun e => Looks.pure _) fun fragments => Looks.pure _

theorem looks_loadLocal (base : Path) (pattern : String) : Looks (loadLocal base pattern) := by
  refine (looks_paths _).andThen (fun e => Looks.pure _) fun found => ?_
  refine (looks_loadPaths found).andThen (fun e => Looks.pure _) fun fragments => ?_
  cases fragments <;> exact Looks.pure _

theorem looks_loadStored (path : Path) : Looks (loadStored path) := by
  refine (looks_readText path).andThen (fun e => Looks.pure _) fun text => ?_
  dsimp only
  split <;> exact Looks.pure _

theorem looks_loadStatic (path : Path) : Looks (loadStatic path) := by
  rw [loadStatic]
  split
  · exact looks_loadStored path
  · exact looks_loadFile path

/-! ## Asking a server -/

theorem looks_library : Looks Host.library := fun _ => rfl

/-- A request is noted, whatever the response is. -/
theorem run_exchange (r : Http.Request) (w : World) :
    (Host.exchange r : StateM World _).run w = (w.network r, { w with sent := r :: w.sent }) := rfl

/-- A request that the response to another one asks for. -/
def World.LeadsOn (w : World) (library : Library) (r next : Http.Request) : Prop :=
  ∃ response message, w.network r = .ok response ∧ library.redirect r.toMessage response = .go message ∧
    next = r.next message

/-- Behind a request, those are noted that the responses ask for, one after the other, and no more than are allowed. -/
theorem run_follow (library : Library) : ∀ (hops : Nat) (r : Http.Request) (w : World),
    ∃ rest, ((follow library hops r : StateM World _).run w).2 = { w with sent := rest.reverse ++ r :: w.sent } ∧ rest.length ≤ hops ∧
      (r :: rest).IsChain (w.LeadsOn library)
  | hops, r, w => by
    rw [follow.eq_def, run_bind, run_exchange]
    have hnone : ([] : List Http.Request).length ≤ hops ∧ [r].IsChain (w.LeadsOn library) := ⟨Nat.zero_le hops, .singleton r⟩
    cases hresponse : w.network r with
    | error reason => exact ⟨[], rfl, hnone⟩
    | ok response =>
      dsimp only
      cases hredirect : library.redirect r.toMessage response with
      | stay => exact ⟨[], rfl, hnone⟩
      | refused reason => exact ⟨[], rfl, hnone⟩
      | go message =>
        cases hops with
        | zero => exact ⟨[], rfl, hnone⟩
        | succ hops =>
          obtain ⟨rest, hrun, hlength, hchain⟩ :=
            run_follow library hops (r.next message) { w with sent := r :: w.sent }
          refine ⟨r.next message :: rest, ?_, Nat.succ_le_succ hlength, .cons_cons ⟨_, _, hresponse, hredirect, rfl⟩ hchain⟩
          simpa using hrun

theorem asks_follow (library : Library) (hops : Nat) (r : Http.Request) : Asks (follow library hops r) := by
  intro w
  obtain ⟨rest, hrun, -⟩ := run_follow library hops r w
  exact ⟨_, hrun⟩

/-- A client posts with the library of the world. -/
theorem run_post (c : Client) (e : Endpoint) (w : World) :
    (c.post e : StateM World _).run w = (c.postWith w.library e : StateM World _).run w := rfl

theorem asks_post (c : Client) (e : Endpoint) : Asks (c.post e) := by
  refine looks_library.bindAsks fun library => ?_
  rw [Client.postWith]
  split
  · exact Asks.pure _
  · exact (asks_follow library _ _).andThen (fun e => Asks.pure _) fun response => Asks.pure _

theorem asks_fetchSdl (c : Client) (e : Endpoint) : Asks (c.fetchSdl e) := by
  have hfetch : Asks (c.fetch e) := (asks_post c e).andThen (fun e => Asks.pure _) fun response => Asks.pure _
  exact hfetch.andThen (fun e => Asks.pure _) fun info => Asks.pure _

theorem asks_fetchRemote (client : Client) : ∀ source : RemoteSource, Asks (fetchRemote client source)
  | .url endpoint => (asks_fetchSdl client endpoint).andThen (fun _ => Asks.pure _) fun _ => Asks.pure _
  | .file path => (looks_loadStatic path).asks.andThen (fun _ => Asks.pure _) fun _ => Asks.pure _

theorem asks_gather (o : RunOptions) : Asks (gather o) := by
  refine (looks_loadLocal o.base o.pattern).asks.andThen (fun e => Asks.pure _) fun fragments => ?_
  exact (asks_fetchRemote o.client _).andThen (fun e => Asks.pure _) fun remote => Asks.pure _

theorem keeps_gather (o : RunOptions) : Keeps (gather o) := (asks_gather o).keeps

/-! ## The run -/

/-- Writing leaves everything as it was if it fails, and else puts the artifact at the place of its path. -/
theorem writeOutput_files (path : Path) (artifact : String) (w : World) :
    match (writeOutput path artifact : StateM World _).run w with
    | (.error _, w') => w' = w
    | (.ok (), w') => ∃ parent last, FileTree.WritesAt w.files w.current path parent last ∧
        w' = { w with files := .put (.file artifact.toUTF8) (parent ++ [last]) w.files } := by
  simp only [writeOutput, Host.writeFile, StateT.run_bind, StateT.run_get, pure_bind, FileTree.write]
  cases h : w.files.locateForWriting w.current path with
  | error e => exact rfl
  | ok place =>
    obtain ⟨parent, last, rfl, hplace⟩ := FileTree.locateForWriting_eq_ok h
    exact ⟨parent, last, hplace, rfl⟩

/-- What a run leaves of a world: everything, up to the requests that were sent, and if it succeeds, the artifact at the
place of its output. -/
theorem introspectSchema_leaves (o : RunOptions) (w : World) :
    ∃ sent, match (introspectSchema o : StateM World _).run w with
    | (.error _, w') => w' = { w with sent }
    | (.ok artifact, w') =>
      match o.output with
      | none => w' = { w with sent }
      | some path => ∃ parent last, FileTree.WritesAt w.files w.current path parent last ∧
          w' = { w with files := .put (.file artifact.toUTF8) (parent ++ [last]) w.files, sent } := by
  obtain ⟨sent, hsent⟩ := asks_gather o w
  refine ⟨sent, ?_⟩
  rw [introspectSchema, run_bind, hsent]
  cases ((gather o : StateM World _).run w).1 with
  | error e => exact rfl
  | ok fragments =>
    dsimp only
    cases artifactOf fragments with
    | error e => exact rfl
    | ok artifact =>
      cases o.output with
      | none => exact rfl
      | some path =>
        have hwrite := writeOutput_files path artifact { w with sent }
        dsimp only
        rw [run_bind]
        generalize (writeOutput path artifact : StateM World _).run { w with sent } = p at hwrite ⊢
        obtain ⟨_ | ⟨⟩, w₁⟩ := p
        · exact hwrite
        · exact hwrite

/-- **A run writes all or nothing.** If it fails, at whatever stage and whatever the server answers, all files are
as they were; if it succeeds, the file of the output path holds the bytes of the artifact, and nothing else has
changed. -/
theorem introspectSchema_files (o : RunOptions) (w : World) :
    match (introspectSchema o : StateM World _).run w with
    | (.error _, w') => w'.files = w.files
    | (.ok artifact, w') =>
      match o.output with
      | none => w'.files = w.files
      | some path => ∃ parent last, FileTree.WritesAt w.files w.current path parent last ∧
          w'.files = .put (.file artifact.toUTF8) (parent ++ [last]) w.files ∧
          w'.files.read w.current path = .ok artifact.toUTF8 ∧
          ∀ q, q ≠ parent ++ [last] → w'.files.contentAt q = w.files.contentAt q := by
  obtain ⟨sent, hleaves⟩ := introspectSchema_leaves o w
  generalize (introspectSchema o : StateM World _).run w = p at hleaves ⊢
  obtain ⟨_ | artifact, w'⟩ := p
  · dsimp only at hleaves ⊢
    rw [hleaves]
  · cases hout : o.output with
    | none =>
      simp only [hout] at hleaves ⊢
      rw [hleaves]
    | some path =>
      simp only [hout] at hleaves ⊢
      obtain ⟨parent, last, hplace, rfl⟩ := hleaves
      exact ⟨parent, last, hplace, rfl, hplace.read _, fun q hq => hplace.contentAt_of_ne _ hq⟩

end SchemaWeave
