import SchemaWeave.Schema.Builtin
import SchemaWeave.Schema.Rules.Directive
import SchemaWeave.Schema.Rules.Interface
import SchemaWeave.Schema.Rules.Cycle

/-!
# The rules of a schema

`Schema.diagnostics` lists everything that is wrong with a schema: its roots, its directive definitions and its types, with
the directives applied to each of their parts.
-/

namespace SchemaWeave.Schema

open Graphql

/-- The diagnostic for a name with two leading underscores. -/
def checkName (element : NamedElement) (name : Name) : List Diagnostic :=
  if isReserved name then [.reservedName element name] else []

/-- The diagnostics for a reference to a type, where some kinds of types are not allowed. -/
def checkReference (s : Schema) (allowed : TypeKind → Bool) (otherwise : Diagnostic) (type : TypeExpr) :
    List Diagnostic :=
  match s.type? type.core with
  | none => [.unknownType type.core]
  | some t => if allowed t.kind then [] else [otherwise]

/-- The diagnostics for an argument or input field. -/
def checkInput (s : Schema) (element : NamedElement) (location : DirectiveLocation) (d : InputDef) : List Diagnostic :=
  checkName element d.name ++ checkDirectives s location d.directives ++
    checkReference s isInputKind (.notInput d.name) d.type

/-- The diagnostics for the arguments of a field or a directive definition. -/
def checkArgumentDefs (s : Schema) (arguments : List InputDef) : List Diagnostic :=
  arguments.flatMap (checkInput s .argument .argumentDefinition) ++
    (repeated [] (arguments.map (·.name))).map .duplicateArgumentDef

/-- The diagnostics for a field. -/
def checkField (s : Schema) (f : FieldDef) : List Diagnostic :=
  checkName .field f.name ++ checkDirectives s .fieldDefinition f.directives ++ checkArgumentDefs s f.arguments ++
    checkReference s isOutputKind (.notOutput f.name) f.type

/-- The diagnostics for a member of a union. -/
def checkMember (s : Schema) (member : Name) : List Diagnostic :=
  checkReference s (· = .object) (.memberNotObject member) (.named member false)

/-- The diagnostics for an enum value. -/
def checkEnumValue (s : Schema) (v : EnumValueDef) : List Diagnostic :=
  checkName .enumValue v.name ++ checkDirectives s .enumValue v.directives

/-- The diagnostic for a type without members. -/
def checkNotEmpty {α : Type} (d : Diagnostic) (members : List α) : List Diagnostic :=
  if members.isEmpty then [d] else []

/-- The place of directives on a type. -/
def typeLocation : TypeKind → DirectiveLocation
  | .scalar => .scalar
  | .object => .object
  | .interface => .interface
  | .union => .union
  | .enum => .enum
  | .inputObject => .inputObject

/-- The diagnostics for what a type contains. -/
def checkContent (s : Schema) (t : TypeDef) : List Diagnostic :=
  match t.body with
  | .scalar => []
  | .object _ fields | .interface _ fields =>
    fields.flatMap (checkField s) ++ checkNotEmpty (.noFields t.name) fields ++ checkInterfaces s t
  | .union members => members.flatMap (checkMember s) ++ checkNotEmpty (.noMembers t.name) members
  | .enum values => values.flatMap (checkEnumValue s) ++ checkNotEmpty (.noEnumValues t.name) values
  | .inputObject fields =>
    fields.flatMap (checkInput s .inputField .inputFieldDefinition) ++ checkNotEmpty (.noInputFields t.name) fields ++
      checkInputCycle s t.name fields

/-- The diagnostics for a type. The built-in scalar types are taken as they are, and built-in names are allowed. -/
def checkType (s : Schema) (t : TypeDef) : List Diagnostic :=
  if builtinScalars.contains t.name then []
  else
    (if Builtin.isBuiltinType t.name then [] else checkName (.type t.kind) t.name) ++
      checkDirectives s (typeLocation t.kind) t.directives ++ checkContent s t

/-- The diagnostics for a directive definition. -/
def checkDirectiveDef (s : Schema) (d : DirectiveDef) : List Diagnostic :=
  checkName .directive d.name ++ checkArgumentDefs s d.arguments ++ checkDirectiveCycle s d

/-- The diagnostics for a root type. -/
def checkRoot (s : Schema) (type : Name) : List Diagnostic :=
  checkReference s (· = .object) (.rootNotObject type) (.named type false)

/-- The diagnostics for the schema itself. -/
def checkRoots (s : Schema) : List Diagnostic :=
  checkDirectives s .schema s.applied ++ s.roots.flatMap (checkRoot s ·.2) ++
    (repeated [] (s.roots.map (·.2))).map .rootUsedTwice ++
    (if (s.root? .query).isNone then [.missingQueryRoot] else [])

/-- Everything that is wrong with a schema. -/
def diagnostics (s : Schema) : List Diagnostic :=
  checkRoots s ++ s.directives.flatMap (checkDirectiveDef s) ++ s.types.flatMap (checkType s)

end SchemaWeave.Schema
