import SchemaWeave.Command.Arguments
import SchemaWeave.Command.Header
import SchemaWeave.Config.Load
import SchemaWeave.Run.Pipeline

/-!
# The command

The command loads the settings file that is given or the nearest one, lays the switches over it, and runs. Its outcome is a
`Report`: an exit code and what is printed.
-/

namespace SchemaWeave.Command

open Files Introspection

/-- Why the command fails. -/
inductive CommandError
  | config (path : Path) (error : ConfigError)
  | noRemote
  | headers (error : HeaderError)
  | run (error : SchemaError)

def CommandError.message : CommandError → String
  | config path _ => s!"Failed to load config from {path}"
  | noRemote => "No remote schema given. Pass --remote or set `remote` in .graphql-codegenrc"
  | headers _ => "Failed to parse headers"
  | run error => error.message

/-- The causes of a failure, the nearest first. -/
def CommandError.causes : CommandError → List String
  | config _ error => error.message :: error.causes
  | noRemote => []
  | headers error => [error.message]
  | run error => error.causes

/-- A text behind a label, its later lines indented as far as the label is wide. -/
def labelled (label text : String) : String :=
  label ++ ("\n".pushn ' ' label.length).intercalate (text.splitOn "\n")

/-- Causes as they are listed: several are numbered. -/
def listCauses : List String → String
  | [] => ""
  | [cause] => "\n\nCaused by:\n" ++ labelled "    " cause
  | causes => "\n\nCaused by:\n" ++ "\n".intercalate (causes.mapIdx fun i cause => labelled s!"    {i}: " cause)

/-- What is printed on a failure. -/
def CommandError.text (e : CommandError) : String := s!"Error: {e.message}{listCauses e.causes}\n"

/-- An exit code and what is printed. -/
structure Report where
  code : Nat
  out : String := ""
  err : String := ""
  deriving DecidableEq, Repr

/-- The headers of a list of texts. -/
def readHeaders (texts : List String) : Except CommandError (List (String × String)) :=
  (texts.mapM headerOfText).mapError .headers

/-- What a run is given: switches before settings, and settings before defaults. `base` is the directory that the pattern
is relative to. -/
def resolveOptions (file : Config) (a : Arguments) (base : Path) : Except CommandError RunOptions := do
  let settings := file.merge a.settings
  match settings.remote with
  | none => throw .noRemote
  | some remote =>
    let headers ← readHeaders a.headers
    return { remote, pattern := settings.clientOrDefault, output := some settings.outputOrDefault,
             insecure := settings.insecureOrDefault, base,
             client := { ({} : Client).withHeaders headers with timeout := a.timeout } }

/-- The directory of a settings file, if its path has one. -/
def directoryOf? (path : Path) : Option Path :=
  match path.parent? with
  | some "" | none => none
  | some parent => some parent

/-- Hundredths of a second as seconds. -/
def secondsText (hundredths : Nat) : String :=
  s!"{hundredths / 100}.{hundredths / 10 % 10}{hundredths % 10}s"

/-- What is printed on success. -/
def successText (path : Path) (artifact : String) (elapsed : Nat) : String :=
  s!"✓ Introspection result written to {path} ({artifact.utf8ByteSize} bytes)\n  ⏱ {secondsText elapsed}\n"

variable {m : Type → Type} [Monad m] [Host m]

/-- The settings file that the arguments name, or else the nearest one. -/
def settingsPath (a : Arguments) (current : Path) : m (Option Path) :=
  match a.config with
  | some path => return some path
  | none => Config.find current

/-- The settings of a file, if there is one. -/
def loadSettings : Option Path → m (Except CommandError Config)
  | none => return .ok {}
  | some path => do
    match ← Config.load path with
    | .error e => return .error (.config path e)
    | .ok c => return .ok c

/-- What a run is given, by the arguments and the settings file. -/
def optionsFor (a : Arguments) : m (Except CommandError RunOptions) := do
  let current ← Host.currentDir
  let path ← settingsPath a current
  match ← loadSettings path with
  | .error e => return .error e
  | .ok file => return resolveOptions file a ((path.bind directoryOf?).getD current)

/-- Runs the command and gives what is printed on success. -/
def introspect (a : Arguments) : m (Except CommandError String) := do
  let start ← Host.clock
  match ← optionsFor a with
  | .error e => return .error e
  | .ok options =>
    match ← introspectSchema options with
    | .error e => return .error (.run e)
    | .ok artifact =>
      let stop ← Host.clock
      return .ok (match a.quiet, options.output with
        | false, some path => successText path artifact (stop - start)
        | _, _ => "")

/-- The name of the program. -/
def programName : String := "graphql-codegen"

def versionText : String := s!"{programName} 0.1.0\n"

/-- A line of help on a switch. -/
def switchLine (s : Switch) : String :=
  let letter := match s.letter? with
    | some c => s!"-{c}, "
    | none => "    "
  s!"  {letter}--{s.long}  {s.summary}\n"

/-- The switches of a level, as help lists them. -/
def switchLines (level : Level) : String :=
  String.join ((Switch.all.filter fun s => s.levels.contains level).map switchLine)

def helpText : Level → String
  | .program => s!"Client schema introspection for GraphQL code generation\n\nUsage: {programName} [OPTIONS] <COMMAND>\n\n" ++
    "Commands:\n  introspect-schema  Merge client schema files with a remote schema and write introspection JSON\n" ++
    s!"  help               Print help on a command\n\nOptions:\n{switchLines .program}"
  | .introspect => s!"Merge client schema files with a remote schema and write introspection JSON\n\n" ++
    s!"Usage: {programName} introspect-schema [OPTIONS]\n\nOptions:\n{switchLines .introspect}"

/-- The exit code of a misuse. -/
def misuseCode : Nat := 2

/-- Does what a command line asks for. -/
def run (args : List String) : m Report := do
  match Invocation.ofArguments args with
  | .help level => return { code := 0, out := helpText level }
  | .version => return { code := 0, out := versionText }
  | .misuse e => return { code := misuseCode, err := s!"error: {e.message}\n" }
  | .introspect a =>
    match ← introspect a with
    | .ok out => return { code := 0, out }
    | .error e => return { code := 1, err := e.text }

end SchemaWeave.Command
