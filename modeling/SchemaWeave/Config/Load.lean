import SchemaWeave.Config.Error
import SchemaWeave.Config.Json
import SchemaWeave.Config.Yaml
import SchemaWeave.Host

/-!
# Finding and loading settings

A settings file has one of four names. `Config.find` looks for them in a directory and then in those above it. The
extension of a file says how it is written; a file with the bare name may be in either format.
-/

namespace SchemaWeave.Config

open Files

/-- The name of a settings file without an extension. -/
def bareName : String := ".graphql-codegenrc"

/-- The names of settings files, the preferred ones first. -/
def fileNames : List String := [s!"{bareName}.yml", s!"{bareName}.yaml", s!"{bareName}.json", bareName]

/-- How settings are written. -/
inductive Format
  | yaml | json
  /-- YAML, or else JSON -/
  | either
  deriving DecidableEq, Repr

/-- The format of a file. -/
def formatOf? (path : Path) : Option Format :=
  match path.extension? with
  | some "yml" | some "yaml" => some .yaml
  | some "json" => some .json
  | some "" | none => if path.fileName? = some bareName then some .either else none
  | some _ => none

/-- The settings in a text of some format. -/
def parse (text : String) : Format → Except ConfigFault Config
  | .yaml => (ofYaml text).mapError .yaml
  | .json => (ofJson text).mapError .json
  | .either =>
    match ofYaml text with
    | .ok c => .ok c
    | .error _ => (ofJson text).mapError .json

/-- Checks that no text of some settings is empty. -/
def validate (c : Config) : Except ConfigFault Config :=
  match c.emptyField? with
  | some field => .error (.emptyField field)
  | none => .ok c

/-- The settings in a text; the path gives the format and stands in messages. -/
def ofText (text : String) (path : Path) : Except ConfigError Config :=
  match formatOf? path with
  | none => .error (.unsupportedFormat path)
  | some format => ((parse text format).bind validate).mapError (.invalid path)

variable {m : Type → Type} [Monad m] [Host m]

/-- Loads a settings file. -/
def load (path : Path) : m (Except ConfigError Config) := do
  match ← Host.readText path with
  | .error e => return .error (.unreadable e)
  | .ok text => return ofText text path

/-- The first of some paths that leads to a regular file. -/
def firstFile : List Path → m (Option Path)
  | [] => return none
  | path :: paths => do
    if ← Host.isFile path then return some path else firstFile paths

/-- The paths at which settings are looked for: in a directory, then in those above it. -/
def candidates (start : Path) : List Path := start.popped.flatMap fun dir => fileNames.map (Path.join dir)

/-- The nearest settings file, from a directory on upwards. -/
def find (start : Path) : m (Option Path) := firstFile (candidates start)

end SchemaWeave.Config
