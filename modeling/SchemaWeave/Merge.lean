import SchemaWeave.Fragment
import SchemaWeave.Graphql.Builtin
import SchemaWeave.Graphql.Parser
import SchemaWeave.Graphql.Printer

/-!
# Merging fragments

The definitions of a list of fragments become one document. Of several definitions with one key the last stands, whole,
in the place of the first; definitions that every schema has are dropped; extensions follow all definitions in the
order in which they were met. A fragment that cannot be read, or that holds an operation or a fragment definition,
fails the merge.
-/

namespace SchemaWeave

open Graphql

/-- What makes two definitions exclude each other: types of all kinds share one space of names. -/
inductive DefinitionKey
  | schema
  | directive (name : Name)
  | type (name : Name)
  deriving DecidableEq, Repr

namespace DefinitionKey

/-- The key of a definition; extensions and executable definitions have none. -/
def of? : Definition → Option DefinitionKey
  | .schema _ => some schema
  | .directive d => some (directive d.name)
  | .type d => some (type d.name)
  | _ => none

/-- Whether definitions with the key are dropped. -/
def isBuiltin : DefinitionKey → Bool
  | schema => false
  | directive name => builtinDirectives.contains name
  | type name => isReserved name || builtinScalars.contains name

end DefinitionKey

/-- Why fragments do not merge. -/
inductive MergeError
  /-- the fragment of this source cannot be read -/
  | unreadable (source : String) (error : SyntaxError)
  /-- the fragment of this source holds an operation or a fragment definition -/
  | executable (source : String)

def MergeError.message : MergeError → String
  | unreadable source error => s!"{source}: Error: {error.message}"
  | executable source => s!"{source}: operations and fragments cannot be merged into a schema"

namespace Merge

/-- What has been merged so far: the definitions by key, and the extensions. -/
structure Draft where
  definitions : List (DefinitionKey × Definition) := []
  extensions : List Definition := []

/-- Puts a definition in the place of the one with its key, or behind all others. -/
def put (key : DefinitionKey) (d : Definition) : List (DefinitionKey × Definition) → List (DefinitionKey × Definition)
  | [] => [(key, d)]
  | (k, d') :: rest => if k = key then (k, d) :: rest else (k, d') :: put key d rest

/-- Adds a definition. -/
def Draft.add (p : Draft) (d : Definition) : Draft :=
  match DefinitionKey.of? d with
  | none => { p with extensions := p.extensions ++ [d] }
  | some key => if key.isBuiltin then p else { p with definitions := put key d p.definitions }

/-- The merged document: the definitions, then the extensions. -/
def Draft.document (p : Draft) : Document := p.definitions.map (·.2) ++ p.extensions

/-- The definitions of a fragment, if it can be read and is not executable. -/
def read (f : Fragment) : Except MergeError Document :=
  match Document.parse f.sdl with
  | .error e => .error (.unreadable f.source e)
  | .ok doc => if doc.any Definition.isExecutable then .error (.executable f.source) else .ok doc

/-- Adds the definitions of a fragment. -/
def Draft.addFragment (p : Draft) (f : Fragment) : Except MergeError Draft := do
  let doc ← read f
  return doc.foldl Draft.add p

end Merge

/-- The document that fragments merge to. -/
def mergeDocuments (fragments : List Fragment) : Except MergeError Document := do
  let p ← fragments.foldlM Merge.Draft.addFragment {}
  return p.document

/-- The text that fragments merge to. -/
def mergeFragments (fragments : List Fragment) : Except MergeError String := do
  let doc ← mergeDocuments fragments
  return Document.text doc

end SchemaWeave
