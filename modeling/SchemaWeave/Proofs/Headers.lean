import SchemaWeave.Proofs.Command
import SchemaWeave.Proofs.Introspection.Headers
import SchemaWeave.Proofs.Requests

/-!
# Headers from the command line to the server

The headers of the command line are read before a schema file is loaded, and after the settings file is: a text that gives no
header ends the run when at most that file has been read (`run_of_not_isHeader`). Any list of texts can be given
(`ofArguments_headers`). `headers_sent` follows headers from calls and texts to the request.
-/

namespace SchemaWeave.Command

open Files Http Introspection

/-! ## Headers among the arguments -/

/-- A command line that gives headers, each behind its switch. -/
def headerWords (texts : List String) : List String := "introspect-schema" :: texts.map ("--header=" ++ ·)

theorem ofText_header (text : String) : Word.ofText ("--header=" ++ text) = .long "header" (some text) := by
  have htext : ("--header=" ++ text).toList = ['-', '-', 'h', 'e', 'a', 'd', 'e', 'r', '='] ++ text.toList := by
    rw [String.toList_append]
    rfl
  simp [Word.ofText, htext]

theorem take_header (p : Progress) (text : String) : p.take .header (some text) =
    .ok { arguments := { p.arguments with headers := p.arguments.headers ++ [text] }, seen := .header :: p.seen,
          pending := none } := by
  -- it may come again
  have hagain : (p.seen.contains Switch.header && !Switch.isRepeatable .header) = false := Bool.and_false _
  simp only [Progress.take, Arguments.setValue, hagain]
  rfl

/-- Each text is put behind those that came before. -/
theorem readWords_headers {p : Progress} (hp : p.pending = none) (texts : List String) :
    ∃ seen, readWords .introspect p (texts.map ("--header=" ++ ·)) =
      .ok ({ arguments := { p.arguments with headers := p.arguments.headers ++ texts }, seen, pending := none }, none) := by
  obtain ⟨arguments, seen, pending⟩ := p
  subst hp
  have hswitch : Switch.ofLong? .introspect "header" = some .header := by decide +kernel
  induction texts generalizing arguments seen with
  | nil => exact ⟨seen, by rw [List.append_nil]; rfl⟩
  | cons text texts ih =>
    obtain ⟨seen', hrest⟩ := ih { arguments with headers := arguments.headers ++ [text] } (.header :: seen)
    have htake : Progress.takeLong .introspect "header" (some text) { arguments, seen, pending := none } =
        .ok { arguments := { arguments with headers := arguments.headers ++ [text] }, seen := .header :: seen,
              pending := none } := by
      rw [Progress.takeLong, hswitch]
      exact take_header { arguments, seen, pending := none } text
    refine ⟨seen', ?_⟩
    rw [List.map_cons, readWords.eq_def]
    simp only [ofText_header]
    refine Json.bind_eq_ok.mpr ⟨_, htake, ?_⟩
    rw [hrest, List.append_assoc]
    rfl

/-- Any texts can be given as headers. -/
theorem ofArguments_headers (texts : List String) :
    Invocation.ofArguments (headerWords texts) = .introspect { headers := texts } := by
  obtain ⟨seen, hread⟩ := readWords_headers (p := {}) rfl texts
  have harguments : readArguments (headerWords texts) = .ok { headers := texts } := by
    refine Json.bind_eq_ok.mpr ⟨({}, some (texts.map ("--header=" ++ ·))), rfl, ?_⟩
    refine Json.bind_eq_ok.mpr ⟨_, hread, rfl⟩
  rw [Invocation.ofArguments, harguments]

/-! ## What is read before the headers -/

/-- Nothing happens but that a file is read, if there is one. -/
def ReadsFile (path : Option Path) (events : List Event) : Prop :=
  ∀ event ∈ events, ∃ p found, path = some p ∧ event = .read p found

theorem silent_firstFile (paths : List Path) : Silent (Config.firstFile paths) (Config.firstFile paths) := by
  induction paths with
  | nil => exact Silent.pure _
  | cons path paths ih =>
    refine (silent_isFile path).bind fun b => ?_
    cases b with
    | true => exact Silent.pure _
    | false => exact ih

theorem silent_settingsPath (a : Arguments) (current : Path) : Silent (settingsPath a current) (settingsPath a current) := by
  rw [settingsPath, settingsPath]
  cases a.config with
  | some path => exact Silent.pure _
  | none => exact silent_firstFile _

theorem logs_load (path : Path) : Logs (Config.load path) (Config.load path)
    fun _ events => ReadsFile (some path) events := by
  have hread : Logs (Host.readFile path) (Host.readFile path) fun _ events => ReadsFile (some path) events := by
    refine (logs_readFile path).mono fun found events h => ?_
    rw [h]
    exact fun event hevent => ⟨path, found, rfl, List.mem_singleton.mp hevent⟩
  have htext : Logs (Host.readText path) (Host.readText path) fun _ events => ReadsFile (some path) events := by
    refine hread.andThen (fun e events h => Logs.done h) fun bytes events h => ?_
    dsimp only
    cases String.fromUTF8? bytes with
    | none => exact Logs.done h
    | some text => exact Logs.done h
  exact htext.andThen (fun e events h => Logs.done h) fun text events h => Logs.done h

theorem logs_loadSettings (path : Option Path) : Logs (loadSettings path) (loadSettings path)
    fun _ events => ReadsFile path events := by
  cases path with
  | none => exact Logs.pure fun _ h => (nomatch h)
  | some path => exact (logs_load path).andThen (fun e events h => Logs.done h) fun file events h => Logs.done h

/-- For the options no more is read than the settings file. -/
theorem logsFrom_optionsFor (a : Arguments) (w : World) : LogsFrom w (optionsFor a) (optionsFor a)
    fun _ events => ReadsFile (a.settingsFile w) events := by
  have hpath : w.sees (settingsPath a (w.sees Host.currentDir)) = a.settingsFile w := sees_settingsPath a w
  rw [optionsFor, optionsFor]
  refine LogsFrom.look (Silent.lift fun _ => rfl) (fun _ => rfl) ?_
  refine LogsFrom.look (silent_settingsPath a _) (looks_settingsPath a _) ?_
  rw [hpath]
  refine Logs.andThen (logs_loadSettings (a.settingsFile w)) (fun e events h => ?_) (fun file events h => ?_) w
  · exact Logs.done h
  · exact Logs.done h

/-! ## The run -/

section

variable {args : List String} {a : Arguments} {w : World}

/-- With settings that can be loaded, the options are resolved from them. -/
theorem sees_optionsFor_of_settings {file : Config} (h : Settings w (a.settingsFile w) file) :
    w.sees (optionsFor a) = resolveOptions file a (a.base w) := by
  have hpath : w.sees (settingsPath a (w.sees Host.currentDir)) = a.settingsFile w := sees_settingsPath a w
  have hload := (sees_loadSettings w).mpr h
  rw [optionsFor, sees_bind w (fun _ => rfl), sees_bind w (looks_settingsPath a _), sees_bind w (looks_loadSettings _), hpath,
    hload]
  rfl

/-- Where there is a remote, headers alone can fail. -/
theorem headers_of_resolveOptions {file : Config} {remote : String} {base : Path} {e : CommandError}
    (hremote : (a.settings.remote <|> file.remote) = some remote) (h : resolveOptions file a base = .error e) :
    ∃ reason, e = .headers reason := by
  have hmerged : (file.merge a.settings).remote = some remote := hremote
  rw [resolveOptions, hmerged] at h
  cases hheaders : a.headers.mapM headerOfText with
  | error reason =>
    rw [readHeaders, hheaders] at h
    cases h
    exact ⟨reason, rfl⟩
  | ok headers =>
    rw [readHeaders, hheaders] at h
    cases h

/-- A run without options reads no more than the settings file. -/
theorem logsFrom_run_of_error (h : Invocation.ofArguments args = .introspect a) {e : CommandError}
    (hoptions : w.sees (optionsFor a) = .error e) :
    LogsFrom w (run args) (run args) fun _ events => ReadsFile (a.settingsFile w) events := by
  have hintrospect : LogsFrom w (introspect a) (introspect a)
      fun r events => r = .error e ∧ ReadsFile (a.settingsFile w) events := by
    rw [introspect, introspect]
    refine LogsFrom.look (Silent.lift fun _ => rfl) (fun _ => rfl) ?_
    refine (logsFrom_optionsFor a w).self.bind fun r events hr => ?_
    obtain ⟨hr, -, hreads⟩ := hr
    rw [hr.trans hoptions]
    rw [← List.append_nil events] at hreads
    exact Logs.pure ⟨rfl, hreads⟩
  simp only [run, h]
  refine hintrospect.bind fun r events hr => ?_
  obtain ⟨rfl, hreads⟩ := hr
  exact Logs.done hreads

/-- A text that gives no header ends the run when at most the settings file has been read. -/
theorem run_of_not_isHeader (h : Invocation.ofArguments args = .introspect a) {text : String} (htext : text ∈ a.headers)
    (hheader : ¬IsHeader text) (w : World) : ∃ e events,
      (run args : StateM World Report).run w = ({ code := 1, err := CommandError.text e }, w) ∧
      ((run args : Recorder Report).run []).run w = (({ code := 1, err := e.text }, events), w) ∧
      ReadsFile (a.settingsFile w) events ∧
      ∀ file remote, Settings w (a.settingsFile w) file → (a.settings.remote <|> file.remote) = some remote →
        ∃ reason, e = .headers reason := by
  cases hoptions : w.sees (optionsFor a) with
  | ok o =>
    obtain ⟨file, remote, hready, -⟩ := (sees_optionsFor a w).mp hoptions
    exact absurd (hready.headers text htext) hheader
  | error e =>
    have hrun := run_of_error h hoptions
    obtain ⟨events, hlogged, -, hreads⟩ := logsFrom_run_of_error h hoptions
    rw [hrun] at hlogged
    refine ⟨e, events, hrun, hlogged [], hreads, fun file remote hsettings hremote => ?_⟩
    rw [sees_optionsFor_of_settings hsettings] at hoptions
    exact headers_of_resolveOptions hremote hoptions

end

/-! ## From calls and texts to the request -/

/-- The name of a header stands before the first colon, and the value behind it. -/
theorem headerPair_of_isHeader {text : String} (h : IsHeader text) : ∃ name value, text.toList = name ++ ':' :: value ∧
    ':' ∉ name ∧ (∃ c ∈ name, Text.isBlank c = false) ∧
    headerPair text = (String.ofList (Text.trimBlank name), String.ofList (Text.trimBlank value)) := by
  obtain ⟨name, value, htext, hname, hblank⟩ := h
  have hpos : ∀ c ∈ name, (c != ':') = true := fun c hc => bne_iff_ne.mpr (ne_of_mem_of_not_mem hc hname)
  refine ⟨name, value, htext, hname, hblank, ?_⟩
  rw [headerPair, htext, List.takeWhile_append_of_pos hpos, List.dropWhile_append_of_pos hpos]
  simp

/-- **Configured headers reach the server, each with its last value, or no request does.** Whatever calls gave a client its
headers: if the last value of each name may be sent with it, the address can be read, and there is room for all headers, the
client sends a request, and at most those behind it that the responses lead to. The request has the header that user and
password of the address make, if it has any, two headers of its own, and beside them, whatever their names, one for each name,
with its last value. If a value may not be sent, or the address cannot be read, or there is no room, nothing is sent, and the
client reports a failure of the network. Only the order of the calls for one and the same name counts. On the command line
any texts can be given as headers. The client of a run has the names and values that stand in them before and behind the first
colon, without the blanks around, in the order of the texts. A text without a colon, or with nothing but blanks in front of
it, fails the run: the world is as it was, and nothing has happened but that the settings file was read, if there is one; where
that gives settings and there is a remote, the failure is the one of the headers. -/
theorem headers_sent (timeout : Option Nat) (calls : List HeaderCall) (e : Endpoint) (w : World) :
    (∀ address, w.library.readUrl e.url = some address →
      (∀ name value, IsLast (calls.flatMap HeaderCall.pairs) name value → MaySend name value) →
      w.library.hasRoom ((Client.after timeout calls).headersFor address) = true →
      ∃ request, ∃ configured : List (String × String), (Client.after timeout calls).Sends e w request ∧
        request.headers.Perm (address.authorization.toList.map (("authorization", ·)) ++
          [("accept", "application/json"), ("content-type", "application/json")] ++
          configured.map fun p => (p.1.map Char.toLower, p.2)) ∧
        (configured.map (·.1)).Nodup ∧
        ∀ name value, (name, value) ∈ configured ↔ IsLast (calls.flatMap HeaderCall.pairs) name value) ∧
    ((∃ name value, IsLast (calls.flatMap HeaderCall.pairs) name value ∧ ¬MaySend name value) →
      (Client.after timeout calls).Refuses e w) ∧
    (w.library.readUrl e.url = none → (Client.after timeout calls).Refuses e w) ∧
    (∀ address, w.library.readUrl e.url = some address →
      w.library.hasRoom ((Client.after timeout calls).headersFor address) = false →
      (Client.after timeout calls).Refuses e w) ∧
    (∀ calls', (∀ name, (calls'.flatMap HeaderCall.pairs).filter (·.1 = name) =
        (calls.flatMap HeaderCall.pairs).filter (·.1 = name)) →
      Client.after timeout calls' = Client.after timeout calls) ∧
    (∀ texts, Invocation.ofArguments (headerWords texts) = .introspect { headers := texts }) ∧
    ∀ args a, Invocation.ofArguments args = .introspect a → ∀ w : World,
      (∀ o, a.Resolves w o → o.client = Client.after a.timeout [.many (a.headers.map headerPair)] ∧
        ((run args : StateM World Report).run w).2 = ((introspectSchema o : StateM World _).run w).2 ∧
        ∀ text ∈ a.headers, ∃ name value, text.toList = name ++ ':' :: value ∧ ':' ∉ name ∧
          (∃ c ∈ name, Text.isBlank c = false) ∧
          headerPair text = (String.ofList (Text.trimBlank name), String.ofList (Text.trimBlank value))) ∧
      ∀ text ∈ a.headers, ¬IsHeader text → ∃ failure events,
        (run args : StateM World Report).run w = ({ code := 1, err := CommandError.text failure }, w) ∧
        ((run args : Recorder Report).run []).run w = (({ code := 1, err := failure.text }, events), w) ∧
        (∀ event ∈ events, ∃ path found, a.settingsFile w = some path ∧ event = .read path found) ∧
        ∀ file remote, Settings w (a.settingsFile w) file → (a.settings.remote <|> file.remote) = some remote →
          ∃ reason, failure = .headers reason := by
  have hmem (name value : String) :
      (name, value) ∈ (Client.after timeout calls).headers ↔ IsLast (calls.flatMap HeaderCall.pairs) name value := by
    rw [Client.after_eq]
    exact mem_ofList
  have hordered : Ordered (Client.after timeout calls).headers := by
    rw [Client.after_eq]
    exact ordered_ofList _
  -- a request would have an address, headers that may be sent, and room
  have hrefuses (hnone : ∀ address, w.library.readUrl e.url = some address →
      (∀ name value, IsLast (calls.flatMap HeaderCall.pairs) name value → MaySend name value) →
      w.library.hasRoom ((Client.after timeout calls).headersFor address) ≠ true) :
      (Client.after timeout calls).Refuses e w := by
    refine Client.refuses (Option.eq_none_iff_forall_ne_some.mpr fun request hrequest => ?_)
    obtain ⟨address, haddress, hvalid, hroom, -⟩ := Client.request?_eq_some.mp hrequest
    exact hnone address haddress (fun name value h => hvalid name value ((hmem name value).mpr h)) hroom
  refine ⟨fun address haddress hvalid hroom => ?_, fun hinvalid => hrefuses fun address _ hvalid _ => ?_,
    fun hunread => hrefuses fun address haddress _ _ => ?_, fun address haddress hfull => hrefuses fun address' haddress' _ => ?_,
    fun calls' hsame => ?_, ofArguments_headers, fun args a h w => ⟨?_, ?_⟩⟩
  · have hheaders : ∀ name value, (name, value) ∈ (Client.after timeout calls).headers → MaySend name value :=
      fun name value h => hvalid name value ((hmem name value).mp h)
    have hrequest := Client.request?_eq_some.mpr ⟨address, haddress, hheaders, hroom, rfl⟩
    exact ⟨_, _, Client.sends hrequest, .refl _, hordered.nodup_names, hmem⟩
  · obtain ⟨name, value, hlast, hinvalid⟩ := hinvalid
    exact hinvalid (hvalid name value hlast)
  · cases hunread.symm.trans haddress
  · cases haddress.symm.trans haddress'
    rw [hfull]
    exact Bool.false_ne_true
  · refine Client.after_congr fun name value => ?_
    rw [isLast_iff_getLast?, isLast_iff_getLast?, hsame]
  · intro o ho
    have hrun := run_of_ok h ((sees_optionsFor a w).mpr ho)
    obtain ⟨file, remote, hready, rfl⟩ := ho
    refine ⟨rfl, ?_, fun text htext => headerPair_of_isHeader (hready.headers text htext)⟩
    rw [hrun]
    generalize (introspectSchema _ : StateM World _).run w = p
    obtain ⟨_ | artifact, w'⟩ := p <;> rfl
  · exact fun text htext hheader => run_of_not_isHeader h htext hheader w

/-- A network in which no server answers. -/
def offline : World where
  files := .dir []
  network _ := .error "no network"

/-- A header with the name of a fixed one is added to it, and a value that may not be sent does no harm where it is not the
last one. User and password of the address make a header of their own. -/
theorem headers_sent_beside_fixed : ∃ request,
    (Client.after none [.one "Accept" "b", .many [("x", "\n"), ("x", "y")]]).Sends ⟨"http://user:pw@a", true⟩ offline request ∧
      ∀ p ∈ [("authorization", "Basic dXNlcjpwdw=="), ("accept", "application/json"), ("content-type", "application/json"),
        ("accept", "b"), ("x", "y")], p ∈ request.headers := by
  have hvalid := areValid_iff.mp (show (Headers.ofList [("Accept", "b"), ("x", "\n"), ("x", "y")]).areValid = true by
    decide +kernel)
  have haddress : offline.library.readUrl "http://user:pw@a" = some ⟨"http://a/", some "Basic dXNlcjpwdw=="⟩ := by
    decide +kernel
  obtain ⟨hsends, -⟩ :=
    headers_sent none [.one "Accept" "b", .many [("x", "\n"), ("x", "y")]] ⟨"http://user:pw@a", true⟩ offline
  obtain ⟨request, configured, hrequest, hheaders, -, hlast⟩ :=
    hsends _ haddress (fun name value h => hvalid _ _ (mem_ofList.mpr h)) (by decide +kernel)
  have haccept : ("Accept", "b") ∈ configured := (hlast _ _).mpr ⟨[], [("x", "\n"), ("x", "y")], rfl, by decide⟩
  have hx : ("x", "y") ∈ configured := (hlast _ _).mpr ⟨[("Accept", "b"), ("x", "\n")], [], rfl, by decide⟩
  refine ⟨request, hrequest, fun p hp => hheaders.mem_iff.mpr ?_⟩
  simp only [List.mem_cons, List.not_mem_nil, or_false] at hp
  rcases hp with rfl | rfl | rfl | rfl | rfl
  · exact List.mem_append_left _ (by decide)
  · exact List.mem_append_left _ (by decide)
  · exact List.mem_append_left _ (by decide)
  · exact List.mem_append_right _ (List.mem_map.mpr ⟨_, haccept, by decide +kernel⟩)
  · exact List.mem_append_right _ (List.mem_map.mpr ⟨_, hx, by decide +kernel⟩)

/-- User and password of an address make a header beside the two fixed ones, and the settings file is read before the
headers are: a text without a colon fails the run behind it. -/
theorem not_forall_headers :
    (¬∀ e w request, (Client.after none []).Sends e w request →
      ∀ p ∈ request.headers, p ∈ [("accept", "application/json"), ("content-type", "application/json")]) ∧
    ¬∀ args a (w : World) text, Invocation.ofArguments args = .introspect a → text ∈ a.headers → ¬IsHeader text →
      ∀ path found, .read path found ∉ trace (run args : Recorder Report) w := by
  refine ⟨fun hfixed => ?_, fun hnone => ?_⟩
  · have hrequest : ∃ request ∈ (Client.after none []).request? offline.library ⟨"http://user:pw@a", true⟩,
        ("authorization", "Basic dXNlcjpwdw==") ∈ request.headers := by decide +kernel
    obtain ⟨request, hrequest, hmem⟩ := hrequest
    exact absurd (hfixed _ _ request (Client.sends hrequest) _ hmem) (by decide)
  · have hheader : ¬IsHeader "x" := by
      rw [isHeader_iff]
      decide
    have hwords := ofArguments_headers ["x"]
    have hread : (trace (run (headerWords ["x"]) : Recorder Report) configured).isEmpty = false := by decide +kernel
    obtain ⟨e, events, -, hrun, hevents, -⟩ := run_of_not_isHeader hwords List.mem_cons_self hheader configured
    have htrace : trace (run (headerWords ["x"]) : Recorder Report) configured = events := by rw [trace, hrun]
    rw [htrace] at hread
    cases events with
    | nil => cases hread
    | cons event events =>
      obtain ⟨path, found, -, rfl⟩ := hevents event List.mem_cons_self
      refine hnone _ _ configured "x" hwords List.mem_cons_self hheader path found ?_
      rw [htrace]
      exact List.mem_cons_self

end SchemaWeave.Command
