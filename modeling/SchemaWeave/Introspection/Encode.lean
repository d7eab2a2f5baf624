import SchemaWeave.Introspection.Model
import SchemaWeave.Json.Value

/-!
# Introspection results as JSON

Members come in a fixed order, a type starts with its kind, and a missing optional is written as null.
-/

namespace SchemaWeave.Introspection

/-- A string that may be missing. -/
def encodeOption : Option String → Json
  | none => .null
  | some s => .string s

def TypeRef.toJson : TypeRef → Json
  | bare kind name => .object [("kind", .string kind.name), ("name", encodeOption name), ("ofType", .null)]
  | wrap kind name inner =>
    .object [("kind", .string kind.name), ("name", encodeOption name), ("ofType", inner.toJson)]

/-- A type given by its name alone. -/
def encodeNamed (name : String) : Json := .object [("name", .string name)]

def encodeNamedOption : Option String → Json
  | none => .null
  | some name => encodeNamed name

def encodeNames (names : List String) : Json := .array (names.map encodeNamed)

def encodeNamesOption : Option (List String) → Json
  | none => .null
  | some names => encodeNames names

def InputValue.toJson (v : InputValue) : Json :=
  .object [("name", .string v.name), ("description", encodeOption v.description), ("type", v.type.toJson),
    ("defaultValue", encodeOption v.defaultValue)]

def encodeInputs (vs : List InputValue) : Json := .array (vs.map InputValue.toJson)

def Field.toJson (f : Field) : Json :=
  .object [("name", .string f.name), ("description", encodeOption f.description), ("args", encodeInputs f.args),
    ("type", f.type.toJson), ("isDeprecated", .bool f.isDeprecated),
    ("deprecationReason", encodeOption f.deprecationReason)]

def encodeFields (fs : List Field) : Json := .array (fs.map Field.toJson)

def EnumValue.toJson (v : EnumValue) : Json :=
  .object [("name", .string v.name), ("description", encodeOption v.description), ("isDeprecated", .bool v.isDeprecated),
    ("deprecationReason", encodeOption v.deprecationReason)]

def TypeContent.kind : TypeContent → RefKind
  | scalar => .scalar
  | object .. => .object
  | interface .. => .interface
  | union _ => .union
  | enum _ => .enum
  | inputObject _ => .inputObject

/-- The members that only types of the kind have. -/
def TypeContent.members : TypeContent → List (String × Json)
  | scalar => []
  | object fields interfaces => [("fields", encodeFields fields), ("interfaces", encodeNames interfaces)]
  | interface fields interfaces possibleTypes =>
    [("fields", encodeFields fields), ("interfaces", encodeNamesOption interfaces),
      ("possibleTypes", encodeNamesOption possibleTypes)]
  | union possibleTypes => [("possibleTypes", encodeNames possibleTypes)]
  | enum values => [("enumValues", .array (values.map EnumValue.toJson))]
  | inputObject fields => [("inputFields", encodeInputs fields)]

def TypeInfo.toJson (t : TypeInfo) : Json :=
  .object ([("kind", .string t.content.kind.name), ("name", .string t.name),
    ("description", encodeOption t.description)] ++ t.content.members)

def DirectiveInfo.toJson (d : DirectiveInfo) : Json :=
  .object [("name", .string d.name), ("description", encodeOption d.description),
    ("locations", .array (d.locations.map .string)), ("args", encodeInputs d.args)]

/-- The result as a server sends it, under its one member `__schema`. -/
def SchemaInfo.toJson (s : SchemaInfo) : Json :=
  .object [("__schema", .object [
    ("queryType", encodeNamedOption s.queryType),
    ("mutationType", encodeNamedOption s.mutationType),
    ("subscriptionType", encodeNamedOption s.subscriptionType),
    ("types", .array (s.types.map TypeInfo.toJson)),
    ("directives", .array (s.directives.map DirectiveInfo.toJson))])]

end SchemaWeave.Introspection
