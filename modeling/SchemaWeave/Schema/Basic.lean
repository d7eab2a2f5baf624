import SchemaWeave.Graphql.Document
import SchemaWeave.Graphql.Builtin

/-!
# Schemas

A schema has root types, directives and types, each list with the built-in ones in front and the others in the order of
their definitions. The content of extensions has been added to the types they extend.
-/

namespace SchemaWeave

open Graphql

/-- A schema. Only one definition has any given name in `types`, and likewise in `directives`. -/
structure Schema where
  /-- the directives applied to the schema itself -/
  applied : List Directive := []
  roots : List (OperationKind × Name) := []
  directives : List DirectiveDef := []
  types : List TypeDef := []

namespace Schema

/-- The type with a name. -/
def type? (s : Schema) (name : Name) : Option TypeDef := s.types.find? (·.name == name)

/-- The directive definition with a name. -/
def directive? (s : Schema) (name : Name) : Option DirectiveDef := s.directives.find? (·.name == name)

/-- Whether the schema defines a type with this name, built-in ones included. -/
def hasType (s : Schema) (name : Name) : Bool := (s.type? name).isSome

/-- The root type of a kind of operation. -/
def root? (s : Schema) (kind : OperationKind) : Option Name := s.roots.lookup kind

end Schema

namespace Graphql

/-- The fields of an object or interface type. -/
def TypeDef.fields (t : TypeDef) : List FieldDef :=
  match t.body with
  | .object _ fields | .interface _ fields => fields
  | _ => []

/-- The interfaces that a type implements. -/
def TypeDef.interfaces (t : TypeDef) : List Name :=
  match t.body with
  | .object interfaces _ | .interface interfaces _ => interfaces
  | _ => []

def TypeDef.kind (t : TypeDef) : TypeKind := t.body.kind

/-- An argument or input field that has to be given: required by its type, and without a default. -/
def InputDef.isRequired (d : InputDef) : Bool := d.type.isRequired && d.default.isNone

/-- A directive's argument, the first one of that name. -/
def Directive.argument? (d : Directive) (name : Name) : Option Value := d.arguments.lookup name

/-- The first of some applied directives with a name. -/
def findDirective? (name : Name) (ds : List Directive) : Option Directive := ds.find? (·.name == name)

end Graphql

end SchemaWeave
