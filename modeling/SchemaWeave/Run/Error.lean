import SchemaWeave.Files.Glob
import SchemaWeave.Introspection.Response
import SchemaWeave.Merge
import SchemaWeave.Schema.Diagnostic

/-!
# Why a run fails

The stages of a run and the causes of each to fail, with their wording.
-/

namespace SchemaWeave

open Files Graphql

/-- Why schema files cannot be loaded. -/
inductive LoadError
  | pattern (pattern : String) (error : PatternError)
  | directory (error : GlobError)
  | noMatch (pattern : String)
  | unreadable (source : String) (error : OsError)
  | invalid (source : String) (error : SyntaxError)
  | executable (source : String)
  | invalidIntrospection (source : String) (reason : String)

def LoadError.message : LoadError → String
  | pattern p e => s!"Invalid glob pattern '{p}': {e.message}"
  | directory e => s!"Glob error: {e.message}"
  | noMatch p => s!"No files matched pattern: {p}"
  | unreadable source e => s!"Failed to read {source}: {e.message}"
  | invalid source e => s!"Failed to parse {source}: Error: {e.message}"
  | executable source =>
    s!"{source} contains operations or fragments; schema files may only contain type definitions"
  | invalidIntrospection source reason =>
    s!"Failed to parse {source}: Failed to parse introspection response: {reason}"

/-- Why a run fails. -/
inductive SchemaError
  | load (error : LoadError)
  | remote (error : Introspection.FetchError)
  | merge (error : MergeError)
  | build (diagnostics : List Schema.Diagnostic)
  | write (path : Path) (error : OsError)

def SchemaError.message : SchemaError → String
  | load e => s!"Failed to load schema files: {e.message}"
  | remote e => s!"Error while fetching introspection query: {e.message}"
  | merge e => s!"Failed to merge type definitions: {e.message}"
  | build ds => "Invalid merged schema: Error: " ++ "\n".intercalate (ds.map Schema.Diagnostic.message)
  | write path e => s!"Failed to write {path}: {e.message}"

/-- The causes behind a failure that its message does not end in alone. -/
def SchemaError.causes : SchemaError → List String
  | write _ e => [e.message]
  | _ => []

end SchemaWeave
