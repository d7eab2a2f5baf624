import SchemaWeave.Run.Remote
import SchemaWeave.Schema.Build
import SchemaWeave.Schema.Introspect

/-!
# A run from schema files to the artifact

Local files are loaded before the remote schema is asked for, so a pattern without a match costs no request; the remote
schema is merged last, so it wins. The output is written when all else has succeeded, and only then.
-/

namespace SchemaWeave

open Files Introspection

/-- What a run is given. -/
structure RunOptions where
  /-- the address of a server or the path of a schema file -/
  remote : String
  /-- the pattern for local schema files -/
  pattern : String
  /-- where the artifact is written, if anywhere -/
  output : Option Path
  /-- whether the certificate of a secure server may be invalid -/
  insecure : Bool
  /-- the directory that the pattern is relative to -/
  base : Path
  client : Client

/-- The artifact of merged fragments. -/
def artifactOf (fragments : List Fragment) : Except SchemaError String := do
  let merged ← (mergeFragments fragments).mapError .merge
  let schema ← (Schema.build merged).mapError .build
  return schema.artifact

variable {m : Type → Type} [Monad m] [Host m]

/-- Writes the artifact. -/
def writeOutput (path : Path) (artifact : String) : m (Except SchemaError Unit) := do
  match ← Host.writeFile path artifact.toUTF8 with
  | .error e => return .error (.write path e)
  | .ok () => return .ok ()

/-- The fragments of a run: the local ones, then the remote one. -/
def gather (o : RunOptions) : m (Except SchemaError (List Fragment)) := do
  match ← loadLocal o.base o.pattern with
  | .error e => return .error (.load e)
  | .ok fragments =>
    match ← fetchRemote o.client (RemoteSource.ofText o.remote o.insecure) with
    | .error e => return .error e
    | .ok remote => return .ok (fragments ++ [remote])

/-- Runs all stages and gives the artifact. -/
def introspectSchema (o : RunOptions) : m (Except SchemaError String) := do
  match ← gather o with
  | .error e => return .error e
  | .ok fragments =>
    match artifactOf fragments with
    | .error e => return .error e
    | .ok artifact =>
      match o.output with
      | none => return .ok artifact
      | some path =>
        match ← writeOutput path artifact with
        | .error e => return .error e
        | .ok () => return .ok artifact

end SchemaWeave
