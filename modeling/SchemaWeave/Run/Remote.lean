import SchemaWeave.Run.Load
import SchemaWeave.Introspection.Client

/-!
# The remote schema

The remote schema comes from a server, or from a file: schema language, or a stored introspection result if its extension is
`json` in any case.
-/

namespace SchemaWeave

open Files Http Introspection

/-- Where the remote schema comes from. -/
inductive RemoteSource
  | url (endpoint : Endpoint)
  | file (path : Path)
  deriving DecidableEq

namespace RemoteSource

/-- Tells the address of a server from the path of a file. -/
def ofText (identifier : String) (insecure : Bool) : RemoteSource :=
  if isHttpUrl identifier then url { url := identifier, insecure } else file identifier

/-- The address or path. -/
def describe : RemoteSource → String
  | url e => e.url
  | file p => p

end RemoteSource

/-- Whether a file holds a stored introspection result. -/
def isStoredResult (path : Path) : Bool :=
  (path.extension?.map fun e => e.map Char.toLower) == some "json"

variable {m : Type → Type} [Monad m] [Host m]

/-- Loads a stored introspection result and writes its schema out. -/
def loadStored (path : Path) : m (Except LoadError Fragment) := do
  match ← Host.readText path with
  | .error e => return .error (.unreadable path e)
  | .ok text =>
    match SchemaInfo.ofText text with
    | .error reason => return .error (.invalidIntrospection path reason)
    | .ok info => return .ok { source := path, sdl := info.sdl }

/-- Loads the remote schema from a file. -/
def loadStatic (path : Path) : m (Except LoadError Fragment) :=
  if isStoredResult path then loadStored path else loadFile path

/-- The remote schema. -/
def fetchRemote (client : Client) : RemoteSource → m (Except SchemaError Fragment)
  | .url endpoint => do
    match ← client.fetchSdl endpoint with
    | .error e => return .error (.remote e)
    | .ok sdl => return .ok { source := endpoint.url, sdl }
  | .file path => do
    match ← loadStatic path with
    | .error e => return .error (.load e)
    | .ok fragment => return .ok fragment

end SchemaWeave
