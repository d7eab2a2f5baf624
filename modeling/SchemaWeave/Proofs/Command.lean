import SchemaWeave.Command.Run
import SchemaWeave.Proofs.Json.Reads
import SchemaWeave.Proofs.Rerun

/-!
# The command is a run on resolved options

What the command hands to a run is stated apart from how it gets there: a settings file that is given or found
(`Arguments.settingsFile`), its settings (`Settings`), headers (`IsHeader`, `headerPair`), and values of which the first one
that is set counts (`Arguments.options`). The command resolves its options to these, or to none (`sees_optionsFor`), and only
looks at the world for it (`looks_optionsFor`). What follows is the run, and a report on it (`run_of_ok`), so the command
succeeds exactly if its options can be resolved and the run on them succeeds (`run_introspect`).
-/

namespace SchemaWeave.Command

open Files Introspection

/-! ## Headers -/

/-- A text that gives a header: a colon stands in it, and in front of the first one something that is not blank. -/
def IsHeader (text : String) : Prop :=
  ∃ name value, text.toList = name ++ ':' :: value ∧ ':' ∉ name ∧ ∃ c ∈ name, Text.isBlank c = false

/-- The name and the value of a header, without the blanks around them. -/
def headerPair (text : String) : String × String :=
  (String.ofList (Text.trimBlank (text.toList.takeWhile (· != ':'))),
    String.ofList (Text.trimBlank (text.toList.dropWhile (· != ':')).tail))

/-- Only a text that is blank throughout is trimmed away. -/
theorem trimBlank_eq_nil {cs : List Char} : Text.trimBlank cs = [] ↔ ∀ c ∈ cs, Text.isBlank c = true := by
  simp only [Text.trimBlank, Text.dropBlankEnd, List.reverse_eq_nil_iff, List.dropWhile_eq_nil_iff, List.mem_reverse]
  constructor
  · intro h c hc
    rw [← List.takeWhile_append_dropWhile (p := Text.isBlank) (l := cs)] at hc
    exact (List.mem_append.mp hc).elim List.mem_takeWhile_imp (h c)
  · exact fun h c hc => h c ((List.dropWhile_sublist _).mem hc)

theorem isHeader_iff {text : String} : IsHeader text ↔
    text.toList.dropWhile (· != ':') ≠ [] ∧ Text.trimBlank (text.toList.takeWhile (· != ':')) ≠ [] := by
  rw [Ne, Ne, trimBlank_eq_nil]
  constructor
  · rintro ⟨name, value, htext, hname, c, hc, hblank⟩
    have hpos : ∀ c ∈ name, (c != ':') = true := fun c hc => bne_iff_ne.mpr fun h => hname (h ▸ hc)
    rw [htext, List.dropWhile_append_of_pos hpos, List.takeWhile_append_of_pos hpos]
    refine ⟨fun h => (nomatch h), fun h => ?_⟩
    rw [h c (List.mem_append_left _ hc)] at hblank
    cases hblank
  · rintro ⟨hcolon, hname⟩
    have htext := List.takeWhile_append_dropWhile (p := (· != ':')) (l := text.toList)
    obtain ⟨c, value, hdrop⟩ := List.exists_cons_of_ne_nil hcolon
    have hfirst := List.head_dropWhile_not (· != ':') hcolon
    simp only [hdrop, List.head_cons, bne_eq_false_iff_eq] at hfirst
    rw [hdrop, hfirst] at htext
    push Not at hname
    obtain ⟨b, hb, hblank⟩ := hname
    exact ⟨_, value, htext.symm, fun h => absurd (List.mem_takeWhile_imp h) (by decide), b, hb, by simpa using hblank⟩

theorem headerOfText_eq_ok {text : String} {header : String × String} :
    headerOfText text = .ok header ↔ IsHeader text ∧ headerPair text = header := by
  rw [isHeader_iff, headerOfText, headerPair]
  cases text.toList.dropWhile (· != ':') with
  | nil => simp
  | cons c value =>
    simp only [List.isEmpty_iff]
    split <;> simp_all

/-- Only the first colon counts. -/
example : (headerOfText " x : y:z ").toOption = some ("x", "y:z") := by decide +kernel

/-- Texts are read as headers if each of them gives one. -/
theorem readHeaders_eq_ok {texts : List String} {headers : List (String × String)} :
    readHeaders texts = .ok headers ↔ (∀ text ∈ texts, IsHeader text) ∧ texts.map headerPair = headers := by
  rw [readHeaders, Json.mapError_eq_ok, Json.mapM_eq_ok]
  simp only [headerOfText_eq_ok]
  induction texts generalizing headers with
  | nil => simp [List.forall₂_nil_left_iff, eq_comm]
  | cons text texts ih =>
    simp only [List.forall₂_cons_left_iff, ih, List.forall_mem_cons, List.map_cons]
    constructor
    · rintro ⟨_, _, ⟨htext, rfl⟩, ⟨htexts, rfl⟩, rfl⟩
      exact ⟨⟨htext, htexts⟩, rfl⟩
    · rintro ⟨⟨htext, htexts⟩, rfl⟩
      exact ⟨_, _, ⟨htext, rfl⟩, ⟨htexts, rfl⟩, rfl⟩

/-! ## Settings -/

/-- The settings in a file, if there is one. -/
inductive Settings (w : World) : Option Path → Config → Prop
  | absent : Settings w none {}
  | loaded {path : Path} {text : String} {file : Config} (hread : w.files.read w.current path = .ok text.toUTF8)
      (htext : Config.ofText text path = .ok file) : Settings w (some path) file

/-- The settings file that is loaded: the one that is given, or else the nearest one. -/
def Arguments.settingsFile (a : Arguments) (w : World) : Option Path :=
  a.config <|> (Config.candidates (World.placeText w.current)).find? fun path => w.sees (Host.isFile path)

theorem looks_firstFile (paths : List Path) : Looks (Config.firstFile paths) := by
  induction paths with
  | nil => exact Looks.pure _
  | cons path paths ih =>
    refine (looks_isFile path).bind fun b => ?_
    cases b with
    | true => exact Looks.pure _
    | false => exact ih

theorem sees_firstFile (w : World) (paths : List Path) :
    w.sees (Config.firstFile paths) = paths.find? fun path => w.sees (Host.isFile path) := by
  induction paths with
  | nil => rfl
  | cons path paths ih =>
    rw [Config.firstFile, sees_bind w (looks_isFile path), List.find?_cons]
    cases w.sees (Host.isFile path) with
    | true => rfl
    | false => exact ih

theorem looks_settingsPath (a : Arguments) (current : Path) : Looks (settingsPath a current) := by
  rw [settingsPath]
  cases a.config with
  | some path => exact Looks.pure _
  | none => exact looks_firstFile _

theorem sees_settingsPath (a : Arguments) (w : World) :
    w.sees (settingsPath a (World.placeText w.current)) = a.settingsFile w := by
  rw [settingsPath, Arguments.settingsFile]
  cases a.config with
  | some path => rfl
  | none => exact sees_firstFile w _

theorem looks_load (path : Path) : Looks (Config.load path : StateM World (Except ConfigError Config)) :=
  (looks_readText path).andThen (fun _ => Looks.pure _) fun _ => Looks.pure _

theorem sees_load (w : World) {path : Path} {file : Config} : w.sees (Config.load path) = .ok file ↔
    ∃ text : String, w.files.read w.current path = .ok text.toUTF8 ∧ Config.ofText text path = .ok file := by
  refine ((looks_readText path).sees_andThen w).trans ?_
  simp only [sees_readText, sees_pure]

theorem looks_loadSettings (path : Option Path) : Looks (loadSettings path) := by
  cases path with
  | none => exact Looks.pure _
  | some path => exact (looks_load path).andThen (fun _ => Looks.pure _) fun _ => Looks.pure _

theorem sees_loadSettings (w : World) {path : Option Path} {file : Config} :
    w.sees (loadSettings path) = .ok file ↔ Settings w path file := by
  cases path with
  | none => exact ⟨fun h => by cases h; exact .absent, fun h => by cases h; rfl⟩
  | some path =>
    refine ((looks_load path).sees_andThen w).trans ?_
    simp only [sees_load, sees_pure, Except.ok.injEq, exists_eq_right]
    constructor
    · exact fun ⟨text, hread, htext⟩ => .loaded hread htext
    · intro h
      cases h with
      | loaded hread htext => exact ⟨_, hread, htext⟩

/-! ## Options -/

/-- What a run is given: a value of the arguments, or else the one of the settings, or else the default. -/
def Arguments.options (a : Arguments) (file : Config) (remote : String) (base : Path) : RunOptions where
  remote
  pattern := (a.settings.client <|> file.client).getD "stores/**/*.graphql"
  output := some ((a.settings.output <|> file.output).getD "schema.json")
  insecure := (a.settings.insecure <|> file.insecure).getD true
  base
  client := { ({} : Client).withHeaders (a.headers.map headerPair) with timeout := a.timeout }

/-- The directory that the pattern is relative to: the one of the settings file, or else the working directory. -/
def Arguments.base (a : Arguments) (w : World) : Path :=
  ((a.settingsFile w).bind directoryOf?).getD (World.placeText w.current)

/-- All that a run needs is there: settings that can be loaded, a remote, and headers. -/
structure Arguments.Ready (a : Arguments) (w : World) (file : Config) (remote : String) : Prop where
  settings : Settings w (a.settingsFile w) file
  remote : (a.settings.remote <|> file.remote) = some remote
  headers : ∀ text ∈ a.headers, IsHeader text

/-- The options that the arguments stand for. -/
def Arguments.Resolves (a : Arguments) (w : World) (o : RunOptions) : Prop :=
  ∃ file remote, a.Ready w file remote ∧ a.options file remote (a.base w) = o

theorem resolveOptions_eq_ok {file : Config} {a : Arguments} {base : Path} {o : RunOptions} :
    resolveOptions file a base = .ok o ↔ ∃ remote, (a.settings.remote <|> file.remote) = some remote ∧
      (∀ text ∈ a.headers, IsHeader text) ∧ a.options file remote base = o := by
  simp only [resolveOptions, Config.merge]
  cases a.settings.remote <|> file.remote with
  | none => exact ⟨fun h => (nomatch h), fun ⟨_, h, _⟩ => (nomatch h)⟩
  | some remote =>
    refine Json.bind_eq_ok.trans ?_
    simp only [readHeaders_eq_ok]
    constructor
    · rintro ⟨_, ⟨hheaders, rfl⟩, h⟩
      exact ⟨remote, rfl, hheaders, Except.ok.inj h⟩
    · rintro ⟨_, h, hheaders, rfl⟩
      cases h
      exact ⟨_, ⟨hheaders, rfl⟩, rfl⟩

theorem looks_optionsFor (a : Arguments) : Looks (optionsFor a) := by
  refine Looks.bind (fun _ => rfl) fun current => (looks_settingsPath a current).bind fun path => ?_
  exact (looks_loadSettings path).andThen (fun _ => Looks.pure _) fun _ => Looks.pure _

theorem sees_optionsFor (a : Arguments) (w : World) {o : RunOptions} :
    w.sees (optionsFor a) = .ok o ↔ a.Resolves w o := by
  have hresolve : w.sees (optionsFor a) = .ok o ↔
      ∃ file, Settings w (a.settingsFile w) file ∧ resolveOptions file a (a.base w) = .ok o := by
    rw [Arguments.base, ← sees_settingsPath]
    simp only [← sees_loadSettings]
    rw [optionsFor, sees_bind w (fun _ => rfl), sees_bind w (looks_settingsPath a _)]
    exact (looks_loadSettings _).sees_andThen w
  rw [hresolve]
  simp only [resolveOptions_eq_ok]
  constructor
  · rintro ⟨file, hfile, remote, hremote, hheaders, rfl⟩
    exact ⟨file, remote, ⟨hfile, hremote, hheaders⟩, rfl⟩
  · rintro ⟨file, remote, ⟨hfile, hremote, hheaders⟩, rfl⟩
    exact ⟨file, hfile, remote, hremote, hheaders, rfl⟩

/-! ## The run -/

section

variable {args : List String} {a : Arguments} {w : World}

/-- The time of a world stands still. -/
theorem run_clock (w : World) : (Host.clock : StateM World Nat).run w = (0, w) := rfl

/-- Without options the command ends before the run. -/
theorem run_of_error (h : Invocation.ofArguments args = .introspect a) {e : CommandError}
    (hoptions : w.sees (optionsFor a) = .error e) :
    (run args : StateM World Report).run w = ({ code := 1, err := e.text }, w) := by
  have hrun : (optionsFor a : StateM World _).run w = (.error e, w) := Prod.ext hoptions (looks_optionsFor a w)
  simp only [run, h, introspect, run_bind, run_clock, hrun]
  rfl

/-- With options the command does what a run does, and reports on it. -/
theorem run_of_ok (h : Invocation.ofArguments args = .introspect a) {o : RunOptions}
    (hoptions : w.sees (optionsFor a) = .ok o) :
    (run args : StateM World Report).run w =
      match (introspectSchema o : StateM World _).run w with
      | (.error e, w') => ({ code := 1, err := (CommandError.run e).text }, w')
      | (.ok artifact, w') =>
        ({ code := 0,
           out := match a.quiet, o.output with
             | false, some path => successText path artifact 0
             | _, _ => "" }, w') := by
  have hrun : (optionsFor a : StateM World _).run w = (.ok o, w) := Prod.ext hoptions (looks_optionsFor a w)
  simp only [run, h, introspect, run_bind, run_clock, hrun]
  generalize (introspectSchema o : StateM World _).run w = p
  obtain ⟨_ | artifact, w'⟩ := p <;> rfl

/-- The two switches that keep the command quiet count for nothing but what is printed. -/
theorem run_quietly (h : Invocation.ofArguments args = .introspect a) (w : World) (args' : List String)
    (quiet noProgress : Bool) (h' : Invocation.ofArguments args' = .introspect { a with quiet, noProgress }) :
    ∃ out, (run args' : StateM World Report).run w =
      ({ ((run args : StateM World Report).run w).1 with out }, ((run args : StateM World Report).run w).2) := by
  -- no option is resolved from them
  have hsame : w.sees (optionsFor { a with quiet, noProgress }) = w.sees (optionsFor a) := rfl
  cases hoptions : w.sees (optionsFor a) with
  | error e =>
    rw [run_of_error h hoptions, run_of_error h' (hsame.trans hoptions)]
    exact ⟨"", rfl⟩
  | ok o =>
    rw [run_of_ok h hoptions, run_of_ok h' (hsame.trans hoptions)]
    generalize (introspectSchema o : StateM World _).run w = p
    obtain ⟨_ | artifact, w'⟩ := p
    · exact ⟨"", rfl⟩
    · exact ⟨_, rfl⟩

/-- The first line on success tells the length of the artifact. -/
theorem successText_eq (path : Path) (artifact : String) (elapsed : Nat) : ∃ rest, successText path artifact elapsed =
    s!"✓ Introspection result written to {path} ({artifact.toUTF8.size} bytes)\n" ++ rest := by
  unfold successText
  have hlines : toString " bytes)\n  ⏱ " = toString " bytes)\n" ++ "  ⏱ " := by decide +kernel
  have hsize : artifact.utf8ByteSize = artifact.toUTF8.size := by
    rw [String.toUTF8_eq_toByteArray, String.size_toByteArray]
  rw [hlines, hsize]
  exact ⟨"  ⏱ " ++ (toString (secondsText elapsed) ++ toString "\n"), by simp only [String.append_assoc]⟩

/-- **The command is a run on resolved options.** It exits with 0 exactly if its options can be resolved and the run on them
succeeds; it leaves the world that the run leaves. On exit 0 the output holds the artifact, nothing else has changed, and
unless the command is quiet the length of the artifact is reported. On any other exit all files are as they were, and if the
options cannot be resolved, so is the world, with the requests that were sent. The switches for quiet change what is printed,
and nothing else. -/
theorem run_introspect (h : Invocation.ofArguments args = .introspect a) (w : World) :
    ∃ report w', (run args : StateM World Report).run w = (report, w') ∧
      (report.code = 0 ↔ ∃ o, a.Resolves w o ∧ ∃ artifact, w.sees (introspectSchema o) = .ok artifact) ∧
      (∀ o, a.Resolves w o → ((introspectSchema o : StateM World _).run w).2 = w' ∧
        ∀ artifact, w.sees (introspectSchema o) = .ok artifact →
          ∃ path parent last, o.output = some path ∧ FileTree.WritesAt w.files w.current path parent last ∧
            w'.files.read w.current path = .ok artifact.toUTF8 ∧
            (∀ q, q ≠ parent ++ [last] → w'.files.contentAt q = w.files.contentAt q) ∧
            if a.quiet then report.out = ""
            else ∃ rest,
              report.out = s!"✓ Introspection result written to {path} ({artifact.toUTF8.size} bytes)\n" ++ rest) ∧
      (report.code ≠ 0 → w'.files = w.files) ∧
      ((¬∃ o, a.Resolves w o) → w' = w) ∧
      ∀ args' quiet noProgress, Invocation.ofArguments args' = .introspect { a with quiet, noProgress } →
        ∃ out, (run args' : StateM World Report).run w = ({ report with out }, w') := by
  have hquietly := run_quietly h w
  generalize hrun : (run args : StateM World Report).run w = outcome at hquietly
  obtain ⟨report, w'⟩ := outcome
  refine ⟨report, w', rfl, ?_⟩
  simp only [← sees_optionsFor]
  cases hoptions : w.sees (optionsFor a) with
  | error e =>
    rw [run_of_error h hoptions] at hrun
    cases hrun
    exact ⟨⟨fun hcode => (nomatch hcode), fun ⟨_, h, _⟩ => (nomatch h)⟩, fun _ h => (nomatch h), fun _ => rfl,
      fun _ => rfl, hquietly⟩
  | ok o =>
    obtain ⟨path, hout⟩ : ∃ path, o.output = some path := by
      obtain ⟨file, remote, -, rfl⟩ := (sees_optionsFor a w).mp hoptions
      exact ⟨_, rfl⟩
    obtain ⟨sent, hleaves⟩ := introspectSchema_leaves o w
    rw [run_of_ok h hoptions] at hrun
    simp only [hout] at hrun hleaves
    simp only [Except.ok.injEq, exists_eq_left', forall_eq', not_exists, World.sees, hout]
    generalize (introspectSchema o : StateM World _).run w = outcome at hrun hleaves ⊢
    obtain ⟨_ | artifact, w₁⟩ := outcome
    · cases hrun
      refine ⟨⟨fun hcode => (nomatch hcode), fun ⟨_, h⟩ => (nomatch h)⟩, ⟨rfl, fun _ h => (nomatch h)⟩,
        fun _ => ?_, False.elim, hquietly⟩
      dsimp only at hleaves
      rw [hleaves]
    · cases hrun
      obtain ⟨parent, last, hplace, hw'⟩ := hleaves
      refine ⟨⟨fun _ => ⟨artifact, rfl⟩, fun _ => rfl⟩, ⟨rfl, fun _ h => ?_⟩, fun hcode => (hcode rfl).elim,
        False.elim, hquietly⟩
      cases h
      rw [hw']
      refine ⟨path, parent, last, rfl, hplace, hplace.read _, fun q hq => hplace.contentAt_of_ne _ hq, ?_⟩
      cases a.quiet with
      | true => rfl
      | false => exact successText_eq _ _ _

end

/-- The project with settings in the directory above the schema files, as the command sees it from theirs. -/
def configured : World :=
  { project with
    files := FileTree.put
      (.file "\x7b\"remote\": \"/q/remote.graphqls\", \"client\": \"schemas/*.graphql\"\x7d".toUTF8)
      ["p", ".graphql-codegenrc.json"] project.files
    current := ["p", "schemas"] }

/-- A command line that says where the artifact goes, and leaves the rest to the settings. -/
def configuredWords : List String := ["introspect-schema", "-o", "out.json", "-H", "x: y"]

/-- The pattern is relative to the directory of the settings file, and the output to the working directory. -/
theorem run_introspect_configured : ∃ report w' o artifact out,
    (run configuredWords : StateM World Report).run configured = (report, w') ∧ report.code = 0 ∧
      (o.remote = "/q/remote.graphqls" ∧ o.pattern = "schemas/*.graphql" ∧ o.base = "/p") ∧
      configured.sees (introspectSchema o) = .ok artifact ∧
      w'.files.read configured.current "out.json" = .ok artifact.toUTF8 ∧
      (run ("-q" :: configuredWords) : StateM World Report).run configured = ({ report with out }, w') := by
  let a : Arguments := { settings := { output := some "out.json" }, headers := ["x: y"] }
  have hwords : Invocation.ofArguments configuredWords = .introspect a := rfl
  have hfacts : ((run configuredWords : StateM World Report).run configured).1.code = 0 ∧
      (configured.sees (optionsFor { settings := { output := some "out.json" }, headers := ["x: y"] })).toOption.map
        (fun o => (o.remote, o.pattern, o.base, o.output)) =
        some ("/q/remote.graphqls", "schemas/*.graphql", "/p", some "out.json") := by
    decide +kernel
  obtain ⟨hzero, hoptions⟩ := hfacts
  obtain ⟨report, w', hrun, hcode, hresolved, -, -, hquietly⟩ := run_introspect hwords configured
  rw [hrun] at hzero
  obtain ⟨o, ho, artifact, hartifact⟩ := hcode.mp hzero
  rw [(sees_optionsFor a configured).mpr ho] at hoptions
  simp only [Except.toOption, Option.map_some, Option.some.injEq, Prod.mk.injEq] at hoptions
  obtain ⟨hremote, hpattern, hbase, hpath⟩ := hoptions
  obtain ⟨_, _, _, hout, -, hread, -, -⟩ := (hresolved o ho).2 artifact hartifact
  cases hpath.symm.trans hout
  obtain ⟨out, hquiet⟩ := hquietly ("-q" :: configuredWords) true false rfl
  exact ⟨report, w', o, artifact, out, hrun, hzero, ⟨hremote, hpattern, hbase⟩, hartifact, hread, hquiet⟩

end SchemaWeave.Command
