import SchemaWeave.Schema.Builtin
import SchemaWeave.Introspection.Query
import SchemaWeave.Introspection.TypeRef
import SchemaWeave.Graphql.Printer
import SchemaWeave.Json.Printer

/-!
# Answering the introspection query

A schema answers a query by walking its selections from the schema itself: each field of a node is a value, a node or a list
of nodes (`resolve`), and `Selection.answer` collects what is selected. Deprecated elements are left out of a list unless
the query asks for them. The answer to the introspection query, laid out over several lines, is the artifact.
-/

namespace SchemaWeave.Schema

open Graphql Introspection

/-- A node of the graph that introspection queries walk. -/
inductive Node
  | schema
  | type (t : TypeExpr)
  | field (f : FieldDef)
  | input (d : InputDef)
  | enumValue (v : EnumValueDef)
  | directive (d : DirectiveDef)

/-- What a field of a node gives. -/
inductive Answer
  | value (j : Json)
  | node (n : Node)
  | nodes (ns : List Node)

/-- A text that may be missing. -/
def optionalText : Option String → Answer
  | none => .value .null
  | some s => .value (.string s)

/-- The type of a name, as a node. -/
def namedNode (name : Name) : Node := .type (.named name false)

/-- The directive that marks an element as deprecated. -/
def deprecation? (ds : List Directive) : Option Directive := findDirective? "deprecated" ds

/-- Whether an element is deprecated. -/
def isDeprecated (ds : List Directive) : Bool := (deprecation? ds).isSome

/-- The reason of a deprecation: the one that is given, or the default one if none is. -/
def deprecationReason (ds : List Directive) : Answer :=
  match deprecation? ds with
  | none => .value .null
  | some d =>
    match d.argument? "reason" with
    | none => .value (.string Builtin.defaultReason)
    | some (.string s) => .value (.string s)
    | some _ => .value .null

/-- The elements that a list shows. -/
def shown {α : Type} (includeDeprecated : Bool) (directives : α → List Directive) (elements : List α) : List α :=
  if includeDeprecated then elements else elements.filter fun e => !isDeprecated (directives e)

/-- The kind of a type definition, as a reference tells it. -/
def refKind : TypeKind → RefKind
  | .scalar => .scalar
  | .object => .object
  | .interface => .interface
  | .union => .union
  | .enum => .enum
  | .inputObject => .inputObject

/-- The object types that implement an interface, in the order of the types. -/
def implementers (s : Schema) (interface : Name) : List Name :=
  (s.types.filter fun t => t.kind = .object && t.interfaces.contains interface).map (·.name)

/-- A field of a named type. -/
def resolveNamed (s : Schema) (t : TypeDef) (field : Name) (includeDeprecated : Bool) : Answer :=
  match field with
  | "kind" => .value (.string (refKind t.kind).name)
  | "name" => .value (.string t.name)
  | "description" => optionalText t.description
  | "fields" =>
    match t.body with
    | .object _ fields | .interface _ fields => .nodes ((shown includeDeprecated FieldDef.directives fields).map .field)
    | _ => .value .null
  | "inputFields" =>
    match t.body with
    | .inputObject fields => .nodes ((shown includeDeprecated InputDef.directives fields).map .input)
    | _ => .value .null
  | "interfaces" =>
    match t.body with
    | .object interfaces _ | .interface interfaces _ => .nodes (interfaces.map namedNode)
    | _ => .value .null
  | "enumValues" =>
    match t.body with
    | .enum values => .nodes ((shown includeDeprecated EnumValueDef.directives values).map .enumValue)
    | _ => .value .null
  | "possibleTypes" =>
    match t.body with
    | .union members => .nodes (members.map namedNode)
    | .interface .. => .nodes ((s.implementers t.name).map namedNode)
    | _ => .value .null
  | _ => .value .null

/-- A field of a wrapper around a type. -/
def resolveWrapper (kind : RefKind) (inner : TypeExpr) (field : Name) : Answer :=
  match field with
  | "kind" => .value (.string kind.name)
  | "ofType" => .node (.type inner)
  | _ => .value .null

/-- A field of a type reference. -/
def resolveType (s : Schema) (t : TypeExpr) (field : Name) (includeDeprecated : Bool) : Answer :=
  match t with
  | .named name true => resolveWrapper .nonNull (.named name false) field
  | .list item true => resolveWrapper .nonNull (.list item false) field
  | .list item false => resolveWrapper .list item field
  | .named name false =>
    match s.type? name with
    | some t => resolveNamed s t field includeDeprecated
    | none => .value .null

/-- The root type of a kind of operation, as an answer. -/
def resolveRoot (s : Schema) (kind : OperationKind) : Answer :=
  match s.root? kind with
  | some name => .node (namedNode name)
  | none => .value .null

/-- A field of a node. -/
def resolve (s : Schema) (n : Node) (field : Name) (includeDeprecated : Bool) : Answer :=
  match n with
  | .schema =>
    match field with
    | "queryType" => s.resolveRoot .query
    | "mutationType" => s.resolveRoot .mutation
    | "subscriptionType" => s.resolveRoot .subscription
    | "types" => .nodes (s.types.map fun t => namedNode t.name)
    | "directives" => .nodes (s.directives.map .directive)
    | _ => .value .null
  | .type t => s.resolveType t field includeDeprecated
  | .field f =>
    match field with
    | "name" => .value (.string f.name)
    | "description" => optionalText f.description
    | "args" => .nodes ((shown includeDeprecated InputDef.directives f.arguments).map .input)
    | "type" => .node (.type f.type)
    | "isDeprecated" => .value (.bool (isDeprecated f.directives))
    | "deprecationReason" => deprecationReason f.directives
    | _ => .value .null
  | .input d =>
    match field with
    | "name" => .value (.string d.name)
    | "description" => optionalText d.description
    | "type" => .node (.type d.type)
    | "defaultValue" => optionalText (d.default.map Value.text)
    | _ => .value .null
  | .enumValue v =>
    match field with
    | "name" => .value (.string v.name)
    | "description" => optionalText v.description
    | "isDeprecated" => .value (.bool (isDeprecated v.directives))
    | "deprecationReason" => deprecationReason v.directives
    | _ => .value .null
  | .directive d =>
    match field with
    | "name" => .value (.string d.name)
    | "description" => optionalText d.description
    | "locations" => .value (.array (d.locations.map fun l => .string l.name))
    | "args" => .nodes ((shown includeDeprecated InputDef.directives d.arguments).map .input)
    | _ => .value .null

mutual

/-- The members that selections give at a node. -/
def answer (s : Schema) (n : Node) : List Selection → List (String × Json)
  | [] => []
  | selection :: rest => answerOne s n selection ++ answer s n rest

/-- The members that one selection gives at a node. -/
def answerOne (s : Schema) (n : Node) : Selection → List (String × Json)
  | .spread _ selections => answer s n selections
  | .leaf name =>
    match s.resolve n name false with
    | .value j => [(name, j)]
    | .node _ | .nodes _ => [(name, .null)]
  | .node name includeDeprecated _ selections =>
    match s.resolve n name includeDeprecated with
    | .value j => [(name, j)]
    | .node inner => [(name, .object (answer s inner selections))]
    | .nodes inners => [(name, .array (inners.map fun inner => .object (answer s inner selections)))]

end

/-- The answer of a schema to a query. The one field that a query selects is the schema. -/
def run (s : Schema) (q : Query) : Json :=
  .object (q.selections.flatMap fun
    | .node "__schema" _ _ selections => [("__schema", .object (answer s .schema selections))]
    | _ => [])

/-- The artifact: the answer to the introspection query, laid out over several lines. -/
def artifact (s : Schema) : String := (s.run introspectionQuery).pretty

end SchemaWeave.Schema
