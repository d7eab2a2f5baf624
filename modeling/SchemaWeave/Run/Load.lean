import SchemaWeave.Run.Error

/-!
# Loading schema files

`loadFile` reads one schema file, `loadLocal` all files that a pattern matches. A file that cannot be read as a schema, or
that holds an operation, fails the load; so does a pattern without any match.
-/

namespace SchemaWeave

open Files Graphql

variable {m : Type → Type} [Monad m] [Host m]

/-- Loads a schema file. -/
def loadFile (path : Path) : m (Except LoadError Fragment) := do
  match ← Host.readText path with
  | .error e => return .error (.unreadable path e)
  | .ok sdl =>
    match Document.parse sdl with
    | .error e => return .error (.invalid path e)
    | .ok doc =>
      if doc.any Definition.isExecutable then return .error (.executable path)
      else return .ok { source := path, sdl }

/-- The pattern below a directory: wildcards count in the pattern alone, and not in the name of the directory. -/
def patternBelow (base : Path) (pattern : String) : String :=
  if Path.isAbsolute pattern then pattern
  else Path.join (String.ofList (Pattern.escape base.toList)) pattern

/-- Loads the files among some paths, in their order. -/
def loadPaths : List (Except GlobError Path) → m (Except LoadError (List Fragment))
  | [] => return .ok []
  | .error e :: _ => return .error (.directory e)
  | .ok path :: paths => do
    if ← Host.isDir path then loadPaths paths
    else
      match ← loadFile path with
      | .error e => return .error e
      | .ok fragment =>
        match ← loadPaths paths with
        | .error e => return .error e
        | .ok fragments => return .ok (fragment :: fragments)

/-- Loads every file that a pattern matches, relative to a directory. -/
def loadLocal (base : Path) (pattern : String) : m (Except LoadError (List Fragment)) := do
  let full := patternBelow base pattern
  match ← Glob.paths full with
  | .error e => return .error (.pattern full e)
  | .ok found =>
    match ← loadPaths found with
    | .error e => return .error e
    | .ok [] => return .error (.noMatch full)
    | .ok fragments => return .ok fragments

end SchemaWeave
