import SchemaWeave.Schema.Assembly
import SchemaWeave.Schema.Rules
import SchemaWeave.Graphql.Parser

/-!
# Building a schema from text

`Schema.build` reads a text, puts its definitions together and applies the rules. A schema comes out only if nothing at
all was reported; otherwise all diagnostics do, those for slips in the text included. The rules are applied to all built-in
scalars; the schema has only those that it uses.
-/

namespace SchemaWeave.Schema

open Graphql

/-- The document in a text, as far as it can be read, and the number of slips in it. -/
def readDocument (text : String) : Document × Nat :=
  match Document.read text with
  | .ok (doc, faults) => (doc, faults.length)
  | .error _ => ([], 1)

/-- The schema of a text and everything that is wrong with it. -/
def examine (text : String) : Schema × List Diagnostic :=
  let (doc, faults) := readDocument text
  let (s, reported) := (assemble doc).run []
  (s.dropUnusedScalars, List.replicate faults .unreadable ++ reported ++ s.diagnostics)

/-- The schema of a text, or what is wrong with it. -/
def build (text : String) : Except (List Diagnostic) Schema :=
  match examine text with
  | (s, []) => .ok s
  | (_, ds) => .error ds

end SchemaWeave.Schema
