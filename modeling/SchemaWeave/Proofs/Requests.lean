import SchemaWeave.Proofs.Introspection.Headers
import SchemaWeave.Proofs.Json.Text

/-!
# A run asks a server once, and not before it has loaded the local files

`Recorder` is a second host for the code of a run: it answers as the world does, and logs what files are read and
written and what requests are sent, in order. `Logs x y P` says that `x` on the recorder does what `y` does on the world
and what events it adds to the log. There is one lemma for each function of a run: the search for files logs nothing
(`silent_paths`), loading logs reads (`logs_loadLocal`), and asking a server logs at most one request and those that the
responses lead to (`logsFrom_fetchRemote`). `introspectSchema_requests` puts them in their order.
-/

namespace SchemaWeave

open Files Http Introspection

/-! ## Events -/

/-- What a run does that its surroundings can see. -/
inductive Event
  | read (path : Path) (found : Except OsError ByteArray)
  | write (path : Path) (content : ByteArray)
  | send (request : Request)

/-- The request that an event sends. -/
def Event.request? : Event → Option Request
  | send request => some request
  | read .. | write .. => none

def Event.IsRead : Event → Prop
  | read .. => True
  | write .. | send _ => False

/-- The requests among some events, in their order. -/
def requests (events : List Event) : List Request := events.filterMap Event.request?

theorem requests_append (events events' : List Event) :
    requests (events ++ events') = requests events ++ requests events' :=
  List.filterMap_append

/-- All events are reads. -/
def OnlyReads (events : List Event) : Prop := ∀ e ∈ events, e.IsRead

theorem onlyReads_nil : OnlyReads [] := fun _ h => (List.not_mem_nil h).elim

theorem onlyReads_singleton (p : Path) (found : Except OsError ByteArray) : OnlyReads [.read p found] := by
  intro e he
  rw [List.mem_singleton.mp he]
  trivial

theorem OnlyReads.append {events events' : List Event} (h : OnlyReads events) (h' : OnlyReads events') :
    OnlyReads (events ++ events') :=
  fun e he => (List.mem_append.mp he).elim (h e) (h' e)

theorem OnlyReads.requests_eq_nil {events : List Event} (h : OnlyReads events) : requests events = [] := by
  apply List.filterMap_eq_nil_iff.mpr
  intro e he
  cases e with
  | read => rfl
  | write => exact (h _ he).elim
  | send => exact (h _ he).elim

/-- Computations on a world that log what they do. -/
abbrev Recorder := StateT (List Event) (StateM World)

/-- Answers as the world does, and logs reading, writing and sending. -/
instance : Host Recorder where
  currentDir := StateT.lift Host.currentDir
  isDir p := StateT.lift (Host.isDir p)
  isFile p := StateT.lift (Host.isFile p)
  entries p := StateT.lift (Host.entries p)
  readFile p := do
    let found ← StateT.lift (Host.readFile p)
    modify (· ++ [.read p found])
    return found
  writeFile p content := do
    modify (· ++ [.write p content])
    StateT.lift (Host.writeFile p content)
  exchange r := do
    modify (· ++ [.send r])
    StateT.lift (Host.exchange r)
  library := StateT.lift Host.library
  clock := StateT.lift Host.clock

/-- The events of a computation on a world. -/
def trace {α : Type} (x : Recorder α) (w : World) : List Event := ((x.run []).run w).1.2

/-- From the world `w`, `x` gives and leaves what `y` does, and adds events to the log that stand with the result as `P`
says. The world notes the requests among them. -/
def LogsFrom {α : Type} (w : World) (x : Recorder α) (y : StateM World α) (P : α → List Event → Prop) : Prop :=
  ∃ events, (∀ log, (x.run log).run w = (((y.run w).1, log ++ events), (y.run w).2)) ∧
    (y.run w).2.sent = (requests events).reverse ++ w.sent ∧ P (y.run w).1 events

/-- `LogsFrom` any world. -/
def Logs {α : Type} (x : Recorder α) (y : StateM World α) (P : α → List Event → Prop) : Prop :=
  ∀ w, LogsFrom w x y P

section

variable {α β ε : Type} {w : World} {x : Recorder α} {y : StateM World α} {P P' : α → List Event → Prop}
  {f : α → Recorder β} {g : α → StateM World β} {Q : β → List Event → Prop}

/-- The events that a computation adds are its trace. -/
theorem LogsFrom.self (h : LogsFrom w x y P) :
    LogsFrom w x y fun a events => a = (y.run w).1 ∧ events = trace x w ∧ P a events := by
  obtain ⟨events, hrun, hsent, hevents⟩ := h
  have htrace : trace x w = events := by
    rw [trace, hrun]
    rfl
  exact ⟨events, hrun, hsent, rfl, htrace.symm, hevents⟩

theorem Logs.pure {a : α} (h : P a []) : Logs (Pure.pure a) (Pure.pure a) P := by
  intro w
  refine ⟨[], fun log => ?_, rfl, h⟩
  rw [List.append_nil]
  rfl

theorem Logs.mono (h : Logs x y P) (hP : ∀ a events, P a events → P' a events) : Logs x y P' := by
  intro w
  obtain ⟨events, hrun, hsent, hevents⟩ := h w
  exact ⟨events, hrun, hsent, hP _ _ hevents⟩

/-- The events of two stages are those of the first, then those of the second on what the first leaves. -/
theorem LogsFrom.then (hx : LogsFrom w x y P)
    (hf : ∀ a events, P a events →
      LogsFrom (y.run w).2 (f a) (g a) fun b events' => Q b (events ++ events')) : LogsFrom w (x >>= f) (y >>= g) Q := by
  obtain ⟨events, hrun, hsent, hevents⟩ := hx
  obtain ⟨events', hrun', hsent', hevents'⟩ := hf _ events hevents
  refine ⟨events ++ events', fun log => ?_, ?_, hevents'⟩
  · rw [StateT.run_bind, run_bind, hrun, run_bind, ← List.append_assoc]
    exact hrun' (log ++ events)
  · rw [run_bind, hsent', hsent, requests_append, List.reverse_append, List.append_assoc]

theorem LogsFrom.bind (hx : LogsFrom w x y P)
    (hf : ∀ a events, P a events → Logs (f a) (g a) fun b events' => Q b (events ++ events')) :
    LogsFrom w (x >>= f) (y >>= g) Q :=
  hx.then fun a events h => hf a events h _

/-- The end of a computation that has added some events. -/
theorem Logs.done {b : β} {events : List Event} (h : Q b events) :
    Logs (Pure.pure b) (Pure.pure b) fun b events' => Q b (events ++ events') := by
  apply Logs.pure
  rw [List.append_nil]
  exact h

theorem Logs.bind (hx : Logs x y P)
    (hf : ∀ a events, P a events → Logs (f a) (g a) fun b events' => Q b (events ++ events')) :
    Logs (x >>= f) (y >>= g) Q :=
  fun w => (hx w).bind hf

/-- A stage that stops at an error, or goes on with what it got. -/
theorem LogsFrom.andThen {P : Except ε α → List Event → Prop} {x : Recorder (Except ε α)} {y : StateM World (Except ε α)}
    {f : Except ε α → Recorder β} {g : Except ε α → StateM World β} (hx : LogsFrom w x y P)
    (herror : ∀ e events, P (.error e) events → Logs (f (.error e)) (g (.error e)) fun b events' => Q b (events ++ events'))
    (hok : ∀ a events, P (.ok a) events → Logs (f (.ok a)) (g (.ok a)) fun b events' => Q b (events ++ events')) :
    LogsFrom w (x >>= f) (y >>= g) Q := by
  refine hx.bind fun r events hevents => ?_
  cases r with
  | error e => exact herror e events hevents
  | ok a => exact hok a events hevents

theorem Logs.andThen {P : Except ε α → List Event → Prop} {x : Recorder (Except ε α)} {y : StateM World (Except ε α)}
    {f : Except ε α → Recorder β} {g : Except ε α → StateM World β} (hx : Logs x y P)
    (herror : ∀ e events, P (.error e) events → Logs (f (.error e)) (g (.error e)) fun b events' => Q b (events ++ events'))
    (hok : ∀ a events, P (.ok a) events → Logs (f (.ok a)) (g (.ok a)) fun b events' => Q b (events ++ events')) :
    Logs (x >>= f) (y >>= g) Q :=
  fun w => (hx w).andThen herror hok

end

/-! ## Looking around -/

/-- Nothing is logged. -/
abbrev Silent {α : Type} (x : Recorder α) (y : StateM World α) : Prop := Logs x y fun _ events => events = []

section

variable {α β : Type}

theorem Silent.pure (a : α) : Silent (Pure.pure a) (Pure.pure a) := Logs.pure rfl

theorem Silent.bind {x : Recorder α} {y : StateM World α} {f : α → Recorder β} {g : α → StateM World β}
    (hx : Silent x y) (hf : ∀ a, Silent (f a) (g a)) : Silent (x >>= f) (y >>= g) := by
  refine Logs.bind hx fun a events hevents => ?_
  rw [hevents]
  exact hf a

theorem Silent.mapM {f : α → Recorder β} {g : α → StateM World β} (h : ∀ a, Silent (f a) (g a)) (l : List α) :
    Silent (l.mapM f) (l.mapM g) := by
  induction l with
  | nil => exact Silent.pure _
  | cons a l ih =>
    rw [List.mapM_cons, List.mapM_cons]
    exact (h a).bind fun _ => ih.bind fun _ => Silent.pure _

/-- What does not touch the world does the same on the recorder. -/
theorem Silent.lift {y : StateM World α} (h : Looks y) : Silent (StateT.lift y) y := by
  intro w
  refine ⟨[], fun log => ?_, ?_, rfl⟩
  · rw [List.append_nil]
    rfl
  · rw [h w]
    rfl

/-- What is only looked at adds nothing to the log. -/
theorem LogsFrom.look {w : World} {x : Recorder α} {y : StateM World α} {f : α → Recorder β} {g : α → StateM World β}
    {Q : β → List Event → Prop} (hx : Silent x y) (hy : Looks y) (hf : LogsFrom w (f (w.sees y)) (g (w.sees y)) Q) :
    LogsFrom w (x >>= f) (y >>= g) Q := by
  obtain ⟨_, hrun, -, rfl⟩ := hx w
  obtain ⟨events, hrun', hsent, hQ⟩ := hf
  have hbind : (y >>= g).run w = (g (w.sees y)).run w := by rw [run_bind, hy w]; rfl
  rw [LogsFrom, hbind]
  refine ⟨events, fun log => ?_, hsent, hQ⟩
  rw [StateT.run_bind, run_bind, hrun, hy w, List.append_nil]
  exact hrun' log

end

theorem silent_isDir (p : Path) : Silent (Host.isDir p) (Host.isDir p) := Silent.lift (looks_isDir p)

theorem silent_isFile (p : Path) : Silent (Host.isFile p) (Host.isFile p) := Silent.lift (looks_isFile p)

theorem silent_entries (p : Path) : Silent (Host.entries p) (Host.entries p) := Silent.lift (looks_entries p)

theorem silent_pathExists (p : Path) : Silent (Host.pathExists p) (Host.pathExists p) := by
  refine (silent_isDir p).bind fun b => ?_
  cases b with
  | true => exact Silent.pure true
  | false => exact silent_isFile p

section

variable {directoriesOnly : Bool}

theorem silent_ofPath (p : Path) : Silent (Glob.Spot.ofPath p) (Glob.Spot.ofPath p) :=
  (silent_isDir p).bind fun _ => Silent.pure _

mutual

theorem silent_descend : ∀ (bound : Nat) (patterns : List Pattern) (s : Glob.Spot),
    Silent (Glob.descend directoriesOnly bound patterns s) (Glob.descend directoriesOnly bound patterns s)
  | _, [], _ => by rw [Glob.descend, Glob.descend]; exact Silent.pure _
  | 0, _ :: _, _ => by rw [Glob.descend, Glob.descend]; exact Silent.pure _
  | bound + 1, pattern :: patterns, s => by
    rw [Glob.descend, Glob.descend]
    have honward (next : Path) : Silent (Glob.Spot.ofPath next >>= Glob.descend directoriesOnly bound patterns)
        (Glob.Spot.ofPath next >>= Glob.descend directoriesOnly bound patterns) :=
      (silent_ofPath next).bind fun t => silent_descend bound patterns t
    dsimp only
    cases pattern.literal? with
    | some name =>
      refine (silent_pathExists _).bind fun b => ?_
      split
      · exact honward _
      · exact Silent.pure _
    | none =>
      dsimp only
      split
      · exact Silent.pure _
      · refine (silent_entries s.path).bind fun entries => ?_
        cases entries with
        | error e => exact Silent.pure _
        | ok entries =>
          refine (Silent.mapM (fun d => honward _) _).bind fun special => ?_
          refine (Silent.mapM (fun e => ?_) _).bind fun children => Silent.pure _
          exact silent_visit bound _ _ (Prod.fst e)

theorem silent_visit : ∀ (bound : Nat) (patterns : List Pattern) (s : Glob.Spot) (name : String),
    Silent (Glob.visit directoriesOnly bound patterns s name) (Glob.visit directoriesOnly bound patterns s name)
  | 0, _, _, _ => by rw [Glob.visit, Glob.visit]; exact Silent.pure _
  | bound + 1, patterns, s, name => by
    rw [Glob.visit, Glob.visit]
    generalize (patterns.head?.map Pattern.isRecursive).getD false = isRecursive
    dsimp only
    generalize (if isRecursive = true then Glob.dropRecursive patterns else patterns) = further
    have hbelow : ∀ here : Glob.Found, Silent
        (if (isRecursive && s.isDir) = true then do
          let below ← Glob.descend directoriesOnly bound ([.directories] :: further) s
          return here ++ below
        else do
          let below ← Pure.pure []
          return here ++ below)
        (if (isRecursive && s.isDir) = true then do
          let below ← Glob.descend directoriesOnly bound ([.directories] :: further) s
          return here ++ below
        else do
          let below ← Pure.pure []
          return here ++ below) := by
      intro here
      split
      · exact (silent_descend bound _ s).bind fun below => Silent.pure _
      · exact Silent.pure _
    cases further with
    | nil => exact hbelow _
    | cons pattern rest =>
      dsimp only
      split
      · exact (silent_descend bound _ s).bind hbelow
      · exact hbelow []

end

end

theorem silent_paths (text : String) : Silent (Glob.paths text) (Glob.paths text) := by
  rw [Glob.paths, Glob.paths]
  cases Glob.Search.ofText text.toList with
  | error e => exact Silent.pure _
  | ok search =>
    dsimp only
    split
    · exact Silent.pure _
    · exact (silent_ofPath _).bind fun start => (silent_descend _ _ start).bind fun found => Silent.pure _

/-! ## Loading -/

theorem logs_readFile (p : Path) :
    Logs (Host.readFile p) (Host.readFile p) fun found events => events = [.read p found] :=
  fun _ => ⟨_, fun _ => rfl, rfl, rfl⟩

/-- The events of reading a text: only reads, and if there is a text, it has been read. -/
def TextEvents (p : Path) (r : Except OsError String) (events : List Event) : Prop :=
  OnlyReads events ∧ ∀ text, r = .ok text → .read p (.ok text.toUTF8) ∈ events

/-- The events of loading files: only reads, and what each fragment holds has been read. -/
def LoadEvents (r : Except LoadError (List Fragment)) (events : List Event) : Prop :=
  OnlyReads events ∧ ∀ fragments, r = .ok fragments → ∀ f ∈ fragments, .read f.source (.ok f.sdl.toUTF8) ∈ events

theorem LoadEvents.error {e : LoadError} {events : List Event} (h : OnlyReads events) : LoadEvents (.error e) events :=
  ⟨h, fun _ he => nomatch he⟩

theorem LoadEvents.nil {events : List Event} (h : OnlyReads events) : LoadEvents (.ok []) events := by
  refine ⟨h, fun fragments he f hf => ?_⟩
  cases he
  exact (List.not_mem_nil hf).elim

theorem LoadEvents.cons {fragment : Fragment} {fragments : List Fragment} {events events' : List Event}
    (h : LoadEvents (.ok [fragment]) events) (h' : LoadEvents (.ok fragments) events') :
    LoadEvents (.ok (fragment :: fragments)) (events ++ events') := by
  refine ⟨h.1.append h'.1, fun _ he f hf => List.mem_append.mpr ?_⟩
  cases he
  rcases List.mem_cons.mp hf with rfl | hf
  · exact .inl (h.2 _ rfl f (List.mem_singleton.mpr rfl))
  · exact .inr (h'.2 _ rfl f hf)

theorem logs_readText (p : Path) : Logs (Host.readText p) (Host.readText p) (TextEvents p) := by
  refine (logs_readFile p).andThen (fun e events hevents => ?_) fun bytes events hevents => ?_
  · refine Logs.done ⟨?_, fun _ he => nomatch he⟩
    rw [hevents]
    exact onlyReads_singleton p _
  · rw [hevents]
    dsimp only
    cases htext : String.fromUTF8? bytes with
    | none => exact Logs.done ⟨onlyReads_singleton p _, fun _ he => nomatch he⟩
    | some text =>
      refine Logs.done ⟨onlyReads_singleton p _, fun _ he => ?_⟩
      cases he
      rw [fromUTF8?_eq_some.mp htext]
      exact List.mem_singleton.mpr rfl

theorem logs_loadFile (p : Path) :
    Logs (loadFile p) (loadFile p) fun r events => LoadEvents (r.map fun f => [f]) events := by
  refine (logs_readText p).andThen (fun e events h => Logs.done (.error h.1)) fun sdl events h => ?_
  dsimp only
  cases Graphql.Document.parse sdl with
  | error e => exact Logs.done (.error h.1)
  | ok doc =>
    dsimp only
    split
    · exact Logs.done (.error h.1)
    · refine Logs.done ⟨h.1, fun _ he f hf => ?_⟩
      cases he
      rw [List.mem_singleton.mp hf]
      exact h.2 sdl rfl

theorem logs_loadPaths (found : List (Except GlobError Path)) :
    Logs (loadPaths found) (loadPaths found) LoadEvents := by
  induction found with
  | nil => exact Logs.pure (.nil onlyReads_nil)
  | cons first found ih =>
    cases first with
    | error e => exact Logs.pure (.error onlyReads_nil)
    | ok path =>
      rw [loadPaths, loadPaths]
      refine Logs.bind (silent_isDir path) fun b events hevents => ?_
      simp only [hevents, List.nil_append]
      cases b with
      | true => exact ih
      | false =>
        refine (logs_loadFile path).andThen (fun e events h => Logs.done h) fun fragment events h => ?_
        refine ih.andThen (fun e events' h' => ?_) fun fragments events' h' => ?_
        all_goals simp only [← List.append_assoc]
        · exact Logs.done (.error (h.1.append h'.1))
        · exact Logs.done (h.cons h')

theorem logs_loadLocal (base : Path) (pattern : String) :
    Logs (loadLocal base pattern) (loadLocal base pattern) LoadEvents := by
  refine (silent_paths _).andThen (fun e events hevents => Logs.done (.error ?_)) fun found events hevents => ?_
  · rw [hevents]
    exact onlyReads_nil
  · simp only [hevents, List.nil_append]
    refine (logs_loadPaths found).andThen (fun e events h => Logs.done h) fun fragments events h => ?_
    cases fragments with
    | nil => exact Logs.done (.error h.1)
    | cons => exact Logs.done h

/-! ## The remote schema -/

/-- The events of asking for the remote schema: only reads, or a request and those that the responses lead to. -/
def RemoteEvents (w : World) (client : Client) (source : RemoteSource) (events : List Event) : Prop :=
  OnlyReads events ∨
    ∃ endpoint request rest, source = .url endpoint ∧ client.request? w.library endpoint = some request ∧
      events = (request :: rest).map .send ∧ rest.length ≤ maxRedirects ∧ (request :: rest).IsChain (w.LeadsOn w.library)

theorem logs_loadStored (p : Path) : Logs (loadStored p) (loadStored p) fun _ events => OnlyReads events := by
  refine (logs_readText p).andThen (fun e events h => Logs.done h.1) fun text events h => ?_
  dsimp only
  cases SchemaInfo.ofText text with
  | error reason => exact Logs.done h.1
  | ok info => exact Logs.done h.1

theorem logs_loadStatic (p : Path) : Logs (loadStatic p) (loadStatic p) fun _ events => OnlyReads events := by
  rw [loadStatic, loadStatic]
  split
  · exact logs_loadStored p
  · exact (logs_loadFile p).mono fun _ _ h => h.1

/-- All events send requests. -/
def OnlySends (events : List Event) : Prop := events = (requests events).map .send

theorem OnlySends.append {events events' : List Event} (h : OnlySends events) (h' : OnlySends events') :
    OnlySends (events ++ events') := by
  rw [OnlySends, requests_append, List.map_append, ← h, ← h']

theorem logs_exchange (r : Request) :
    Logs (Host.exchange r) (Host.exchange r) fun _ events => OnlySends events :=
  fun _ => ⟨[.send r], fun _ => rfl, rfl, rfl⟩

theorem logs_follow (library : Library) (hops : Nat) (r : Request) :
    Logs (follow library hops r) (follow library hops r) fun _ events => OnlySends events := by
  induction hops generalizing r with
  | zero =>
    rw [follow, follow]
    refine (logs_exchange r).andThen (fun e events h => Logs.done h) fun response events h => ?_
    dsimp only
    cases library.redirect r.toMessage response <;> exact Logs.done h
  | succ hops ih =>
    rw [follow, follow]
    refine (logs_exchange r).andThen (fun e events h => Logs.done h) fun response events h => ?_
    dsimp only
    cases library.redirect r.toMessage response with
    | stay => exact Logs.done h
    | refused reason => exact Logs.done h
    | go message => exact (ih _).mono fun _ _ h' => h.append h'

section

variable (w : World) (c : Client) (e : Endpoint)

theorem logsFrom_follow {request : Request} (hrequest : c.request? w.library e = some request) :
    LogsFrom w (follow w.library maxRedirects request) (follow w.library maxRedirects request)
      fun _ events => RemoteEvents w c (.url e) events := by
  obtain ⟨events, hrun, hsent, hsends⟩ := logs_follow w.library maxRedirects request w
  obtain ⟨rest, hleaves, hlength, hchain⟩ := run_follow w.library maxRedirects request w
  refine ⟨events, hrun, hsent, .inr ⟨e, request, rest, rfl, hrequest, ?_, hlength, hchain⟩⟩
  -- the world has noted the requests among the events
  have hrequests : (request :: rest).reverse ++ w.sent = (requests events).reverse ++ w.sent := by
    rw [← hsent, hleaves, List.reverse_cons, List.append_assoc]
    rfl
  rw [List.reverse_injective (List.append_cancel_right hrequests)]
  exact hsends

theorem logsFrom_post : LogsFrom w (c.post e) (c.post e) fun _ events => RemoteEvents w c (.url e) events := by
  refine LogsFrom.look (Silent.lift looks_library) looks_library ?_
  have hlibrary : w.sees Host.library = w.library := rfl
  rw [hlibrary, Client.postWith, Client.postWith]
  cases hrequest : c.request? w.library e with
  | none => exact Logs.pure (.inl onlyReads_nil) w
  | some request =>
    exact (logsFrom_follow w c e hrequest).andThen (fun reason events h => Logs.done h) fun response events h => Logs.done h

theorem logsFrom_fetchSdl :
    LogsFrom w (c.fetchSdl e) (c.fetchSdl e) fun _ events => RemoteEvents w c (.url e) events := by
  have hfetch : LogsFrom w (c.fetch e) (c.fetch e) fun _ events => RemoteEvents w c (.url e) events :=
    (logsFrom_post w c e).andThen (fun e events h => Logs.done h) fun response events h => Logs.done h
  exact hfetch.andThen (fun e events h => Logs.done h) fun info events h => Logs.done h

end

theorem logsFrom_fetchRemote (w : World) (client : Client) : ∀ source : RemoteSource,
    LogsFrom w (fetchRemote client source) (fetchRemote client source) fun _ events => RemoteEvents w client source events
  | .url endpoint =>
    (logsFrom_fetchSdl w client endpoint).andThen (fun _ _ h => Logs.done h) fun _ _ h => Logs.done h
  | .file path =>
    (logs_loadStatic path w).andThen (fun _ _ h => Logs.done (.inl h)) fun _ _ h => Logs.done (.inl h)

/-! ## The run -/

theorem logs_writeFile (p : Path) (content : ByteArray) :
    Logs (Host.writeFile p content) (Host.writeFile p content) fun _ events => events = [.write p content] := by
  intro w
  refine ⟨_, fun _ => rfl, ?_, rfl⟩
  simp only [Host.writeFile, StateT.run_bind, StateT.run_get, pure_bind]
  cases w.files.write w.current p content <;> rfl

theorem logs_writeOutput (path : Path) (artifact : String) :
    Logs (writeOutput path artifact) (writeOutput path artifact) fun _ events => requests events = [] := by
  refine (logs_writeFile path artifact.toUTF8).andThen (fun e events h => ?_) fun _ events h => ?_
  all_goals
    rw [h]
    apply Logs.pure
    rfl

/-- The events of gathering fragments on `w`: those of the local load, and those of asking for the remote schema if the
load has succeeded. -/
def GatherEvents (o : RunOptions) (w : World) (result : Except SchemaError (List Fragment)) (events : List Event) :
    Prop :=
  ∃ during, events = trace (loadLocal o.base o.pattern) w ++ during ∧
    (∀ e, ((loadLocal o.base o.pattern : StateM World _).run w).1 = .error e →
      result = .error (.load e) ∧ during = []) ∧
    RemoteEvents w o.client (.ofText o.remote o.insecure) during

theorem logsFrom_gather (o : RunOptions) (w : World) : LogsFrom w (gather o) (gather o) (GatherEvents o w) := by
  refine (logs_loadLocal o.base o.pattern w).self.then fun r events h => ?_
  obtain ⟨hr, hevents, -⟩ := h
  rw [hevents, looks_loadLocal o.base o.pattern w]
  cases r with
  | error e =>
    refine Logs.done ⟨[], (List.append_nil _).symm, fun e' he' => ?_, .inl onlyReads_nil⟩ w
    rw [← hr] at he'
    cases he'
    exact ⟨rfl, rfl⟩
  | ok fragments =>
    have hremote : ∀ {result during}, RemoteEvents w o.client (.ofText o.remote o.insecure) during →
        GatherEvents o w result (trace (loadLocal o.base o.pattern) w ++ during) := by
      intro result during hduring
      refine ⟨during, rfl, fun e' he' => ?_, hduring⟩
      rw [← hr] at he'
      cases he'
    refine (logsFrom_fetchRemote w o.client _).andThen (fun e during h => ?_) fun remote during h => ?_
    all_goals simp only [← List.append_assoc]
    · exact Logs.done (hremote h)
    · exact Logs.done (hremote h)

/-- The events of a run on `w`: those of gathering fragments, and then no request. A run that cannot gather its
fragments fails as that does. -/
def RunEvents (o : RunOptions) (w : World) (result : Except SchemaError String) (events : List Event) : Prop :=
  ∃ gathered before after, events = before ++ after ∧ GatherEvents o w gathered before ∧
    (∀ e, gathered = .error e → result = .error e) ∧ requests after = []

theorem GatherEvents.error {o : RunOptions} {w : World} {e : SchemaError} {before : List Event}
    (h : GatherEvents o w (.error e) before) : RunEvents o w (.error e) before :=
  ⟨_, before, [], (List.append_nil _).symm, h, fun _ he => by cases he; rfl, rfl⟩

theorem GatherEvents.ok {o : RunOptions} {w : World} {fragments : List Fragment} {before : List Event}
    (h : GatherEvents o w (.ok fragments) before) {result : Except SchemaError String} {after : List Event}
    (hafter : requests after = []) : RunEvents o w result (before ++ after) :=
  ⟨_, before, after, rfl, h, fun _ he => (nomatch he), hafter⟩

theorem logsFrom_introspectSchema (o : RunOptions) (w : World) :
    LogsFrom w (introspectSchema o) (introspectSchema o) (RunEvents o w) := by
  refine (logsFrom_gather o w).bind fun r before h => ?_
  cases r with
  | error e => exact Logs.done h.error
  | ok fragments =>
    have hnothing : ∀ result, Logs (Pure.pure result) (Pure.pure result)
        fun result after => RunEvents o w result (before ++ after) := fun _ => Logs.pure (h.ok rfl)
    dsimp only
    cases artifactOf fragments with
    | error e => exact hnothing _
    | ok artifact =>
      cases o.output with
      | none => exact hnothing _
      | some path =>
        refine (logs_writeOutput path artifact).andThen (fun e after hafter => ?_) fun _ after hafter => ?_
        all_goals simp only [← List.append_assoc]
        · exact Logs.done (h.ok hafter)
        · exact Logs.done (h.ok hafter)

/-! ## The request -/

/-- A text starts with a scheme, where the case of the letters A to Z does not count. -/
def StartsWith (scheme text : String) : Prop :=
  ∃ head tail, text.toList = head ++ tail ∧ head.map Char.toLower = scheme.toList

theorem hasScheme_iff (scheme text : String) : hasScheme scheme text = true ↔ StartsWith scheme text := by
  rw [hasScheme, beq_iff_eq]
  constructor
  · intro h
    exact ⟨_, _, (List.take_append_drop scheme.length text.toList).symm, h⟩
  · rintro ⟨head, tail, htext, hhead⟩
    have hlength : scheme.length = head.length := by
      rw [← String.length_toList, ← hhead, List.length_map]
    rw [htext, hlength, List.take_left, hhead]

theorem ofText_eq_url {text : String} {insecure : Bool} {e : Endpoint} (h : RemoteSource.ofText text insecure = .url e) :
    e = { url := text, insecure } ∧ (StartsWith "http://" text ∨ StartsWith "https://" text) := by
  rw [RemoteSource.ofText] at h
  split at h
  · rename_i hurl
    rw [isHttpUrl, Bool.or_eq_true, hasScheme_iff, hasScheme_iff] at hurl
    cases h
    exact ⟨rfl, hurl⟩
  · cases h

/-- The body of the request is an object with the text of the query. -/
theorem parse_queryBody : Json.parse queryBody = .ok (.object [("query", .string introspectionQuery.text)]) :=
  Json.parse_compact rfl (by simp [Json.nesting, Json.nestingMembers, Json.nestingLimit])

/-- A request among events, of which the first are reads and the last are no requests, stands among the others. -/
theorem eq_of_append_send {reads before after after' : List Event} {sent : List Request} {request : Request}
    (h : reads ++ (sent.map .send ++ after) = before ++ .send request :: after') (hreads : OnlyReads reads)
    (hafter : requests after = []) :
    ∃ earlier later, sent = earlier ++ request :: later ∧ before = reads ++ earlier.map .send := by
  have hfound {events rest : List Event} (hevents : events ++ .send request :: rest = after) : False := by
    rw [← hevents, requests_append] at hafter
    cases (List.append_eq_nil_iff.mp hafter).2
  -- behind the reads
  obtain ⟨between, rfl, hbetween⟩ : ∃ between, before = reads ++ between ∧
      sent.map .send ++ after = between ++ .send request :: after' := by
    rcases List.append_eq_append_iff.mp h with ⟨between, hbefore, hrest⟩ | ⟨between, hbefore, hrest⟩
    · exact ⟨between, hbefore, hrest⟩
    · cases between with
      | nil => exact ⟨[], by simpa using hbefore.symm, hrest.symm⟩
      | cons first between =>
        refine (hreads (.send request) ?_).elim
        rw [hbefore, (List.cons.inj hrest).1]
        exact List.mem_append_right _ List.mem_cons_self
  -- and in front of the others
  rcases List.append_eq_append_iff.mp hbetween with ⟨rest, -, hrest⟩ | ⟨rest, hsent, hrest⟩
  · exact (hfound hrest.symm).elim
  · cases rest with
    | nil => exact (@hfound [] _ hrest).elim
    | cons first rest =>
      obtain ⟨earlier, later, rfl, rfl, hlater⟩ := List.map_eq_append_iff.mp hsent
      obtain ⟨request', later, rfl, hrequest, -⟩ := List.map_eq_cons_iff.mp hlater
      rw [← (List.cons.inj hrest).1] at hrequest
      cases hrequest
      exact ⟨earlier, later, rfl, rfl⟩

/-- What is sent when the remote schema is asked for: nothing, or a request to the address that was given, and those that the
responses lead to. -/
theorem RemoteEvents.requests {o : RunOptions} {w : World} {events : List Event}
    (h : RemoteEvents w o.client (.ofText o.remote o.insecure) events) :
    SchemaWeave.requests events = [] ∨ ∃ request rest, events = (request :: rest).map .send ∧
      o.client.request? w.library { url := o.remote, insecure := o.insecure } = some request ∧
      (StartsWith "http://" o.remote ∨ StartsWith "https://" o.remote) ∧
      rest.length ≤ maxRedirects ∧ (request :: rest).IsChain (w.LeadsOn w.library) := by
  rcases h with hreads | ⟨endpoint, request, rest, hsource, hrequest, hevents, hrest⟩
  · exact .inl hreads.requests_eq_nil
  · obtain ⟨rfl, hscheme⟩ := ofText_eq_url hsource
    exact .inr ⟨request, rest, hevents, hrequest, hscheme, hrest⟩

theorem requests_map_send (sent : List Request) : requests (sent.map .send) = sent := by
  rw [requests, List.filterMap_map]
  exact List.filterMap_some

/-- Where the responses lead, certificates are taken as they are at first. -/
theorem acceptsInvalidCerts_of_isChain {w : World} {library : Library} {request : Request} {rest : List Request}
    (h : (request :: rest).IsChain (w.LeadsOn library)) :
    ∀ r ∈ request :: rest, r.acceptsInvalidCerts = request.acceptsInvalidCerts := by
  induction rest generalizing request with
  | nil => exact List.forall_mem_singleton.mpr rfl
  | cons next rest ih =>
    obtain ⟨⟨response, message, -, -, rfl⟩, hrest⟩ := List.isChain_cons_cons.mp h
    exact List.forall_mem_cons.mpr ⟨rfl, ih hrest⟩

/-- **A run asks a server once, and only when it has loaded the local files.** The events are what the run reads, writes
and sends, in order; to log them changes neither the result nor the world. A request that is not the first is sent because
the library takes the response to the one before for a redirect. -/
theorem introspectSchema_requests (o : RunOptions) (w : World) :
    ∃ result w' events, (introspectSchema o : StateM World _).run w = (result, w') ∧
      ((introspectSchema o : Recorder _).run []).run w = ((result, events), w') ∧
      w'.sent = (requests events).reverse ++ w.sent ∧
      (requests events).IsChain (w.LeadsOn w.library) ∧ (requests events).length ≤ 1 + maxRedirects ∧
      (∀ e, ((loadLocal o.base o.pattern : StateM World _).run w).1 = .error e →
        result = .error (.load e) ∧ requests events = []) ∧
      (¬ (StartsWith "http://" o.remote ∨ StartsWith "https://" o.remote) → requests events = []) ∧
      (w.library.readUrl o.remote = none → requests events = []) ∧
      (∀ name value, (name, value) ∈ o.client.headers → ¬MaySend name value → requests events = []) ∧
      ∀ before request after, events = before ++ .send request :: after →
        ∃ earlier : List Request, before = trace (loadLocal o.base o.pattern) w ++ earlier.map .send ∧
          (earlier = [] → request.method = .post ∧ (w.library.readUrl o.remote).map (·.url) = some request.url ∧
            Json.parse request.body = .ok (.object [("query", .string introspectionQuery.text)])) ∧
          (∃ fragments, ((loadLocal o.base o.pattern : StateM World _).run w).1 = .ok fragments ∧
            ∀ f ∈ fragments, .read f.source (.ok f.sdl.toUTF8) ∈ before) ∧
          (∀ path content, .write path content ∉ before) ∧
          (request.acceptsInvalidCerts = true → o.insecure = true ∧ StartsWith "https://" o.remote) := by
  obtain ⟨events, hrun, hsent, gathered, first, after, rfl, ⟨during, rfl, hfail, hremote⟩, hresult, hafter⟩ :=
    logsFrom_introspectSchema o w
  obtain ⟨-, -, -, -, rfl, hreads, hloaded⟩ := (logs_loadLocal o.base o.pattern w).self
  have hrun := hrun []
  generalize (introspectSchema o : StateM World _).run w = p at hrun hsent hresult
  obtain ⟨result, w'⟩ := p
  rw [List.nil_append] at hrun
  have hrequests : requests (trace (loadLocal o.base o.pattern) w ++ during ++ after) = requests during := by
    rw [requests_append, requests_append, hreads.requests_eq_nil, hafter, List.append_nil, List.nil_append]
  refine ⟨result, w', _, rfl, hrun, hsent, ?_⟩
  rw [hrequests]
  have hload {e} (he : ((loadLocal o.base o.pattern : StateM World _).run w).1 = .error e) :
      result = .error (.load e) ∧ requests during = [] := by
    obtain ⟨hgathered, rfl⟩ := hfail e he
    exact ⟨hresult _ hgathered, rfl⟩
  rcases hremote.requests with hnone | ⟨request, rest, hduring, hrequest, hscheme, hlength, hchain⟩
  · refine ⟨hnone ▸ .nil, hnone ▸ Nat.zero_le _, fun e => hload, fun _ => hnone, fun _ => hnone, fun _ _ _ _ => hnone, ?_⟩
    intro before request after' hevents
    rw [hnone, hevents, requests_append] at hrequests
    cases (List.append_eq_nil_iff.mp hrequests).2
  · obtain ⟨address, hurl, hheaders, -, hmessage⟩ := Client.request?_eq_some.mp hrequest
    subst hduring
    rw [requests_map_send] at hload ⊢
    refine ⟨hchain, ?_, fun e => hload, fun h => absurd hscheme h, fun h => ?_, fun name value hmem h => ?_, ?_⟩
    · rw [List.length_cons, Nat.add_comm]
      exact Nat.add_le_add_left hlength 1
    · cases h.symm.trans hurl
    · exact absurd (hheaders name value hmem) h
    · intro before request' after' hevents
      rw [List.append_assoc] at hevents
      obtain ⟨earlier, later, hsplit, rfl⟩ := eq_of_append_send hevents hreads hafter
      refine ⟨earlier, rfl, fun hfirst => ?_, ?_, fun path content hwrite => ?_, fun haccepts => ?_⟩
      · subst hfirst
        obtain rfl : request = request' := (List.cons.inj hsplit).1
        subst hmessage
        refine ⟨rfl, ?_, parse_queryBody⟩
        rw [hurl]
        rfl
      · cases hlocal : ((loadLocal o.base o.pattern : StateM World _).run w).1 with
        | error e => cases (hload hlocal).2
        | ok fragments => exact ⟨fragments, rfl, fun f hf => List.mem_append_left _ (hloaded fragments hlocal f hf)⟩
      · rcases List.mem_append.mp hwrite with hwrite | hwrite
        · exact hreads _ hwrite
        · obtain ⟨_, -, h⟩ := List.mem_map.mp hwrite
          cases h
      · have hmem : request' ∈ request :: rest := hsplit ▸ List.mem_append_right _ List.mem_cons_self
        rw [acceptsInvalidCerts_of_isChain hchain request' hmem, ← hmessage, Endpoint.acceptsInvalidCerts, Endpoint.isSecure,
          Bool.and_eq_true, hasScheme_iff] at haccepts
        exact haccepts

/-- A server that has moved elsewhere. -/
def movedServer : World where
  files := .dir [("a.graphql", .file "type Query \x7b a: Int \x7d".toUTF8)]
  network r :=
    if r.url = "http://a.test/x" then .ok { status := 307, body := "", location := some "http://b.test/graphql" }
    else .ok { status := 200, body := "" }

def movedOptions : RunOptions where
  remote := "http://a.test/graphql/../x"
  pattern := "*.graphql"
  output := none
  insecure := false
  base := "/"
  client := {}

/-- The dots of an address are not sent, and the query is posted once more to where the first response leads. -/
theorem introspectSchema_moved :
    (requests (trace (introspectSchema movedOptions) movedServer)).map (fun r => (r.method, r.url)) =
      [(.post, "http://a.test/x"), (.post, "http://b.test/graphql")] ∧
    (¬∀ (o : RunOptions) (w : World), (requests (trace (introspectSchema o) w)).length ≤ 1) ∧
    ¬∀ (o : RunOptions) (w : World), ∀ request ∈ requests (trace (introspectSchema o) w), request.url = o.remote := by
  have hsent : (requests (trace (introspectSchema movedOptions) movedServer)).map (fun r => (r.method, r.url)) =
      [(.post, "http://a.test/x"), (.post, "http://b.test/graphql")] := by decide +kernel
  refine ⟨hsent, fun hall => ?_, fun hall => ?_⟩
  · have hlength := hall movedOptions movedServer
    rw [← List.length_map, hsent] at hlength
    exact absurd hlength (by decide)
  · have hfirst : (Method.post, "http://a.test/x") ∈
        (requests (trace (introspectSchema movedOptions) movedServer)).map fun r => (r.method, r.url) :=
      hsent ▸ List.mem_cons_self
    obtain ⟨request, hmem, hurl⟩ := List.mem_map.mp hfirst
    have hremote := (Prod.mk.inj hurl).2.symm.trans (hall movedOptions movedServer request hmem)
    exact absurd hremote (by decide)

end SchemaWeave
