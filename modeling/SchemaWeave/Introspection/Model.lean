import SchemaWeave.Introspection.TypeRef

/-!
# Introspection results

What a server tells about its schema, as far as printing the schema needs it. The list of types says for each what its
kind has to say; deprecation is part of fields and enum values only.
-/

namespace SchemaWeave.Introspection

/-- An argument or an input field. -/
structure InputValue where
  name : String
  description : Option String
  type : TypeRef
  defaultValue : Option String
  deriving DecidableEq, Repr

/-- A field of an object or interface type. -/
structure Field where
  name : String
  description : Option String
  args : List InputValue
  type : TypeRef
  isDeprecated : Bool
  deprecationReason : Option String
  deriving DecidableEq, Repr

/-- A value of an enum type. -/
structure EnumValue where
  name : String
  description : Option String
  isDeprecated : Bool
  deprecationReason : Option String
  deriving DecidableEq, Repr

/-- What a type has beside its name and description. Interfaces and possible types are given by their names. -/
inductive TypeContent
  | scalar
  | object (fields : List Field) (interfaces : List String)
  | interface (fields : List Field) (interfaces possibleTypes : Option (List String))
  | union (possibleTypes : List String)
  | enum (values : List EnumValue)
  | inputObject (fields : List InputValue)
  deriving DecidableEq, Repr

/-- A type of the schema. -/
structure TypeInfo where
  name : String
  description : Option String
  content : TypeContent
  deriving DecidableEq, Repr

/-- A directive of the schema. -/
structure DirectiveInfo where
  name : String
  description : Option String
  locations : List String
  args : List InputValue
  deriving DecidableEq, Repr

/-- The schema of a server: its root types by name, its types and its directives. -/
structure SchemaInfo where
  queryType : Option String
  mutationType : Option String
  subscriptionType : Option String
  types : List TypeInfo
  directives : List DirectiveInfo
  deriving DecidableEq, Repr

end SchemaWeave.Introspection
