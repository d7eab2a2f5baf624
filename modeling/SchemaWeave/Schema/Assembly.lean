import SchemaWeave.Schema.Builtin
import SchemaWeave.Schema.Diagnostic

/-!
# Putting a schema together

The definitions of a document become a schema: definitions in order behind the built-in ones, and the content of each
extension behind that of the type it extends, wherever in the document it stands. Of members with one name the first is
kept. Every definition and extension that does not fit is reported, and the rest is put together all the same.
-/

namespace SchemaWeave.Schema

open Graphql

/-- A result with the diagnostics met on the way. -/
abbrev Reported := StateM (List Diagnostic)

/-- Reports a diagnostic. -/
def report (d : Diagnostic) : Reported Unit := modify (· ++ [d])

/-- Members of which each name is kept once, the first time; the others are reported. -/
def keepFirst {α : Type} (name : α → Name) (duplicate : Name → Diagnostic) (present : List α) :
    List α → Reported (List α)
  | [] => return present
  | a :: rest => do
    if present.any (name · == name a) then
      report (duplicate (name a))
      keepFirst name duplicate present rest
    else keepFirst name duplicate (present ++ [a]) rest

/-- The content of a type with more content of the same kind behind it; `none` if the kinds differ. -/
def addContent (type : Name) (present : TypeBody) (more : TypeBody) : Option (Reported TypeBody) :=
  match present, more with
  | .scalar, .scalar => some (return .scalar)
  | .object is fs, .object is' fs' => some do
    let is ← keepFirst id (.duplicateInterface .object type) is is'
    let fs ← keepFirst FieldDef.name (.duplicateField · .object type) fs fs'
    return .object is fs
  | .interface is fs, .interface is' fs' => some do
    let is ← keepFirst id (.duplicateInterface .interface type) is is'
    let fs ← keepFirst FieldDef.name (.duplicateField · .interface type) fs fs'
    return .interface is fs
  | .union ms, .union ms' => some do return .union (← keepFirst id (.duplicateMember · type) ms ms')
  | .enum vs, .enum vs' => some do return .enum (← keepFirst EnumValueDef.name (.duplicateEnumValue · type) vs vs')
  | .inputObject fs, .inputObject fs' => some do
    return .inputObject (← keepFirst InputDef.name (.duplicateField · .inputObject type) fs fs')
  | _, _ => none

/-- The content of a type of some kind before anything is added. -/
def emptyContent : TypeKind → TypeBody
  | .scalar => .scalar
  | .object => .object [] []
  | .interface => .interface [] []
  | .union => .union []
  | .enum => .enum []
  | .inputObject => .inputObject []

/-- A type definition with each of its members once. -/
def collect (d : TypeDef) : Reported TypeDef := do
  let body ← (addContent d.name (emptyContent d.kind) d.body).getD (return d.body)
  return { d with body }

/-- Adds a type definition. -/
def addType (types : List TypeDef) (d : TypeDef) : Reported (List TypeDef) := do
  if builtinScalars.contains d.name then
    report .builtinScalarDefined
    return types
  else if types.any (·.name == d.name) then
    report (.typeDefinedTwice d.name)
    return types
  else return types ++ [← collect d]

/-- Adds a directive definition; one that is built in gives way to it. -/
def addDirective (directives : List DirectiveDef) (d : DirectiveDef) : Reported (List DirectiveDef) := do
  match directives.find? (·.name == d.name) with
  | none => return directives ++ [d]
  | some _ =>
    if Builtin.isBuiltinDirective d.name then return directives.map fun d' => if d'.name == d.name then d else d'
    else
      report (.directiveDefinedTwice d.name)
      return directives

/-- Adds the content of an extension to the type it names. -/
def extendType (e : TypeExtension) : List TypeDef → Reported (List TypeDef)
  | [] => do
    report (.orphanTypeExtension e.name)
    return []
  | t :: types => do
    if t.name == e.name then
      match addContent t.name t.body e.body with
      | none =>
        report (.extensionKind e.body.kind t.name t.kind)
        return t :: types
      | some body => return { t with body := ← body, directives := t.directives ++ e.directives } :: types
    else return t :: (← extendType e types)

/-- Adds root operation types, each kind of operation once. -/
def addRoots (present more : List (OperationKind × Name)) : Reported (List (OperationKind × Name)) :=
  more.foldlM (fun roots root => do
    if roots.any (·.1 == root.1) then
      report (.duplicateRoot root.1)
      return roots
    else return roots ++ [root]) present

/-- The schema definitions of a document. -/
def schemaDefs (doc : Document) : List SchemaDef :=
  doc.filterMap fun
    | .schema d => some d
    | _ => none

def typeDefs (doc : Document) : List TypeDef :=
  doc.filterMap fun
    | .type d => some d
    | _ => none

def directiveDefs (doc : Document) : List DirectiveDef :=
  doc.filterMap fun
    | .directive d => some d
    | _ => none

def schemaExtensions (doc : Document) : List SchemaExtension :=
  doc.filterMap fun
    | .schemaExtension e => some e
    | _ => none

def typeExtensions (doc : Document) : List TypeExtension :=
  doc.filterMap fun
    | .typeExtension e => some e
    | _ => none

/-- The name that the root type of a kind of operation has by default. -/
def defaultRootName : OperationKind → Name
  | .query => "Query"
  | .mutation => "Mutation"
  | .subscription => "Subscription"

/-- The roots of a schema without a definition: the object types with the default names. -/
def implicitRoots (types : List TypeDef) : List (OperationKind × Name) :=
  OperationKind.all.filterMap fun kind =>
    let name := defaultRootName kind
    match types.find? (·.name == name) with
    | some t => if t.kind = .object then some (kind, name) else none
    | none => none

/-- The definition that schema extensions add to: the one of the document, or the implied one if it has a root. -/
def baseDefinition (doc : Document) (types : List TypeDef) : Reported (Option SchemaDef) := do
  match schemaDefs doc with
  | [] =>
    let roots := implicitRoots types
    return if roots.isEmpty then none else some { roots }
  | d :: others =>
    others.forM fun _ => report .multipleSchemas
    return some { d with roots := ← addRoots [] d.roots }

/-- Adds a schema extension to the definition, if there is one. -/
def extendSchema (base : Option SchemaDef) (e : SchemaExtension) : Reported (Option SchemaDef) := do
  match base with
  | none =>
    report .orphanSchemaExtension
    return none
  | some d => return some { d with roots := ← addRoots d.roots e.roots, directives := d.directives ++ e.directives }

/-- The named types that a field and its arguments refer to. -/
def fieldReferences (f : FieldDef) : List Name := f.type.core :: f.arguments.map (·.type.core)

/-- The named types that fields, arguments and input fields of a type refer to. -/
def references (t : TypeDef) : List Name :=
  match t.body with
  | .object _ fields | .interface _ fields => fields.flatMap fieldReferences
  | .inputObject fields => fields.map (·.type.core)
  | _ => []

/-- The named types that fields, arguments and input fields of a schema refer to. -/
def usedTypes (s : Schema) : List Name :=
  s.types.flatMap references ++ s.directives.flatMap fun d => d.arguments.map (·.type.core)

/-- A schema without the built-in scalars that no field, argument or input field refers to. -/
def dropUnusedScalars (s : Schema) : Schema :=
  { s with types := s.types.filter fun t => !builtinScalars.contains t.name || s.usedTypes.contains t.name }

/-- The schema of a document, with all built-in scalars. -/
def assemble (doc : Document) : Reported Schema := do
  let types ← (typeDefs doc).foldlM addType Builtin.types
  let types ← (typeExtensions doc).foldlM (fun types e => extendType e types) types
  let directives ← (directiveDefs doc).foldlM addDirective Builtin.directives
  let definition ← baseDefinition doc types
  let definition := (← (schemaExtensions doc).foldlM extendSchema definition).getD {}
  return { applied := definition.directives, roots := definition.roots, directives, types }

end SchemaWeave.Schema
