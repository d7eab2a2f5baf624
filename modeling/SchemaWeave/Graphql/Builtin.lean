/-!
# Names that every schema has

The scalar types and directives that need no definition, and the names set apart for introspection.
-/

namespace SchemaWeave.Graphql

/-- The scalar types that every schema has. -/
def builtinScalars : List String := ["Int", "Float", "String", "Boolean", "ID"]

/-- The directives whose definitions are left to the schema. -/
def builtinDirectives : List String := ["skip", "include", "deprecated", "specifiedBy", "oneOf"]

/-- A name that is set apart for introspection: it starts with two underscores. -/
def isReserved (name : String) : Bool :=
  match name.toList with
  | '_' :: '_' :: _ => true
  | _ => false

end SchemaWeave.Graphql
