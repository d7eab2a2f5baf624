import SchemaWeave.Schema.Basic

/-!
# Built-in definitions

The types of introspection, the five scalar types and the four directives that a schema has before any definition of its
own, in the order in which they are listed.
-/

namespace SchemaWeave.Schema.Builtin

open Graphql

/-- A link to a secure address, in the markup of descriptions. -/
def link (text address : String) : String := "[" ++ text ++ "](https" ++ "://" ++ address ++ ")"

/-- A type that may be null. -/
def nullable (name : Name) : TypeExpr := .named name false

/-- A type that may not be null. -/
def required (name : Name) : TypeExpr := .named name true

/-- A list of items that may not be null. -/
def listOf (name : Name) (required : Bool) : TypeExpr := .list (.named name true) required

/-- A field without arguments. -/
def field (name : Name) (type : TypeExpr) (description : Option String := none) : FieldDef := { description, name, type }

/-- A field that takes a switch for deprecated elements. -/
def listing (name : Name) (type : TypeExpr) : FieldDef :=
  { name, type,
    arguments := [{ name := "includeDeprecated", type := nullable "Boolean", default := some (.boolean false) }] }

def objectType (name : Name) (description : String) (fields : List FieldDef) : TypeDef :=
  { description := some description, name, body := .object [] fields }

def enumType (name : Name) (description : String) (values : List (Name × String)) : TypeDef :=
  { description := some description, name,
    body := .enum (values.map fun (name, description) => { description := some description, name }) }

def scalarType (name : Name) (description : String) : TypeDef := { description := some description, name, body := .scalar }

def schemaType : TypeDef :=
  objectType "__Schema"
    ("A GraphQL Schema defines the capabilities of a GraphQL server. It exposes all available types and directives on " ++
      "the server, as well as the entry points for query, mutation, and subscription operations.")
    [field "description" (nullable "String"),
      field "types" (listOf "__Type" true) (some "A list of all types supported by this server."),
      field "queryType" (required "__Type") (some "The type that query operations will be rooted at."),
      field "mutationType" (nullable "__Type")
        (some "If this server supports mutation, the type that mutation operations will be rooted at."),
      field "subscriptionType" (nullable "__Type")
        (some "If this server support subscription, the type that subscription operations will be rooted at."),
      field "directives" (listOf "__Directive" true) (some "A list of all directives supported by this server.")]

def typeType : TypeDef :=
  objectType "__Type"
    ("The fundamental unit of any GraphQL Schema is the type. There are many kinds of types in GraphQL as represented " ++
      "by the `__TypeKind` enum.\n\nDepending on the kind of a type, certain fields describe information about that " ++
      "type. Scalar types provide no information beyond a name, description and optional `specifiedByURL`, while Enum " ++
      "types provide their values. Object and Interface types provide the fields they describe. Abstract types, Union " ++
      "and Interface, provide the Object types possible at runtime. List and NonNull types compose other types.")
    [field "kind" (required "__TypeKind"), field "name" (nullable "String"), field "description" (nullable "String"),
      listing "fields" (listOf "__Field" false), field "interfaces" (listOf "__Type" false),
      field "possibleTypes" (listOf "__Type" false), listing "enumValues" (listOf "__EnumValue" false),
      listing "inputFields" (listOf "__InputValue" false), field "ofType" (nullable "__Type"),
      field "specifiedByURL" (nullable "String")]

def typeKindType : TypeDef :=
  enumType "__TypeKind" "An enum describing what kind of type a given `__Type` is."
    [("SCALAR", "Indicates this type is a scalar."),
      ("OBJECT", "Indicates this type is an object. `fields` and `interfaces` are valid fields."),
      ("INTERFACE", "Indicates this type is an interface. `fields`, `interfaces`, and `possibleTypes` are valid fields."),
      ("UNION", "Indicates this type is a union. `possibleTypes` is a valid field."),
      ("ENUM", "Indicates this type is an enum. `enumValues` is a valid field."),
      ("INPUT_OBJECT", "Indicates this type is an input object. `inputFields` is a valid field."),
      ("LIST", "Indicates this type is a list. `ofType` is a valid field."),
      ("NON_NULL", "Indicates this type is a non-null. `ofType` is a valid field.")]

def fieldType : TypeDef :=
  objectType "__Field"
    ("Object and Interface types are described by a list of Fields, each of which has a name, potentially a list of " ++
      "arguments, and a return type.")
    [field "name" (required "String"), field "description" (nullable "String"), listing "args" (listOf "__InputValue" true),
      field "type" (required "__Type"), field "isDeprecated" (required "Boolean"),
      field "deprecationReason" (nullable "String")]

def inputValueType : TypeDef :=
  objectType "__InputValue"
    ("Arguments provided to Fields or Directives and the input fields of an InputObject are represented as Input " ++
      "Values which describe their type and optionally a default value.")
    [field "name" (required "String"), field "description" (nullable "String"), field "type" (required "__Type"),
      field "defaultValue" (nullable "String")
        (some "A GraphQL-formatted string representing the default value for this input value."),
      field "isDeprecated" (required "Boolean"), field "deprecationReason" (nullable "String")]

def enumValueType : TypeDef :=
  objectType "__EnumValue"
    ("One possible value for a given Enum. Enum values are unique values, not a placeholder for a string or numeric " ++
      "value. However an Enum value is returned in a JSON response as a string.")
    [field "name" (required "String"), field "description" (nullable "String"), field "isDeprecated" (required "Boolean"),
      field "deprecationReason" (nullable "String")]

def directiveType : TypeDef :=
  objectType "__Directive"
    ("A Directive provides a way to describe alternate runtime execution and type validation behavior in a GraphQL " ++
      "document.\n\nIn some cases, you need to provide options to alter GraphQL's execution behavior in ways field " ++
      "arguments will not suffice, such as conditionally including or skipping a field. Directives provide this by " ++
      "describing additional information to the executor.")
    [field "name" (required "String"), field "description" (nullable "String"),
      field "locations" (listOf "__DirectiveLocation" true), listing "args" (listOf "__InputValue" true),
      field "isRepeatable" (required "Boolean")]

def directiveLocationType : TypeDef :=
  enumType "__DirectiveLocation"
    ("A Directive can be adjacent to many parts of the GraphQL language, a __DirectiveLocation describes one such " ++
      "possible adjacencies.")
    [("QUERY", "Location adjacent to a query operation."),
      ("MUTATION", "Location adjacent to a mutation operation."),
      ("SUBSCRIPTION", "Location adjacent to a subscription operation."),
      ("FIELD", "Location adjacent to a field."),
      ("FRAGMENT_DEFINITION", "Location adjacent to a fragment definition."),
      ("FRAGMENT_SPREAD", "Location adjacent to a fragment spread."),
      ("INLINE_FRAGMENT", "Location adjacent to an inline fragment."),
      ("VARIABLE_DEFINITION", "Location adjacent to a variable definition."),
      ("SCHEMA", "Location adjacent to a schema definition."),
      ("SCALAR", "Location adjacent to a scalar definition."),
      ("OBJECT", "Location adjacent to an object type definition."),
      ("FIELD_DEFINITION", "Location adjacent to a field definition."),
      ("ARGUMENT_DEFINITION", "Location adjacent to an argument definition."),
      ("INTERFACE", "Location adjacent to an interface definition."),
      ("UNION", "Location adjacent to a union definition."),
      ("ENUM", "Location adjacent to an enum definition."),
      ("ENUM_VALUE", "Location adjacent to an enum value definition."),
      ("INPUT_OBJECT", "Location adjacent to an input object type definition."),
      ("INPUT_FIELD_DEFINITION", "Location adjacent to an input object field definition.")]

def scalarTypes : List TypeDef :=
  [scalarType "Int"
      ("The `Int` scalar type represents non-fractional signed whole numeric values. Int can represent values between " ++
        "-(2^31) and 2^31 - 1."),
    scalarType "Float"
      ("The `Float` scalar type represents signed double-precision fractional values as specified by " ++
        link "IEEE 754" "en.wikipedia.org/wiki/IEEE_floating_point" ++ "."),
    scalarType "String"
      ("The `String` scalar type represents textual data, represented as UTF-8 character sequences. The String type is " ++
        "most often used by GraphQL to represent free-form human-readable text."),
    scalarType "Boolean" "The `Boolean` scalar type represents `true` or `false`.",
    scalarType "ID"
      ("The `ID` scalar type represents a unique identifier, often used to refetch an object or as key for a cache. The " ++
        "ID type appears in a JSON response as a String; however, it is not intended to be human-readable. When " ++
        "expected as an input type, any string (such as `\"4\"`) or integer (such as `4`) input value will be accepted " ++
        "as an ID.")]

/-- The built-in types. -/
def types : List TypeDef :=
  [schemaType, typeType, typeKindType, fieldType, inputValueType, enumValueType, directiveType, directiveLocationType] ++
    scalarTypes

/-- The reason of a deprecation that gives none. -/
def defaultReason : String := "No longer supported"

/-- The built-in directives. -/
def directives : List DirectiveDef :=
  [{ description := some "Directs the executor to skip this field or fragment when the `if` argument is true.",
     name := "skip",
     arguments := [{ description := some "Skipped when true.", name := "if", type := required "Boolean" }],
     locations := [.field, .fragmentSpread, .inlineFragment] },
    { description := some "Directs the executor to include this field or fragment only when the `if` argument is true.",
      name := "include",
      arguments := [{ description := some "Included when true.", name := "if", type := required "Boolean" }],
      locations := [.field, .fragmentSpread, .inlineFragment] },
    { description := some "Marks an element of a GraphQL schema as no longer supported.",
      name := "deprecated",
      arguments := [
        { description := some ("Explains why this element was deprecated, usually also including a suggestion for how " ++
            "to access supported similar data. Formatted using the Markdown syntax, as specified by " ++
            link "CommonMark" "commonmark.org/" ++ "."),
          name := "reason", type := nullable "String", default := some (.string defaultReason) }],
      locations := [.fieldDefinition, .argumentDefinition, .inputFieldDefinition, .enumValue] },
    { description := some "Exposes a URL that specifies the behavior of this scalar.",
      name := "specifiedBy",
      arguments := [
        { description := some "The URL that specifies the behavior of this scalar.", name := "url",
          type := required "String" }],
      locations := [.scalar] }]

/-- Whether a type is built in. -/
def isBuiltinType (name : Name) : Bool := types.any (·.name == name)

/-- Whether a directive is built in. -/
def isBuiltinDirective (name : Name) : Bool := directives.any (·.name == name)

end SchemaWeave.Schema.Builtin
