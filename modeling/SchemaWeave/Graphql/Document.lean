import SchemaWeave.Graphql.Token

/-!
# Documents of the schema language

A document is a list of definitions. Type definitions and type extensions share their content (`TypeBody`): an extension
is a definition without a description whose content is added to that of the type it names. Operations and fragments
are recognised so that a document which holds them can be refused; of them only that they are there is kept.
-/

namespace SchemaWeave.Graphql

abbrev Name := String

/-- A reference to a type. `required` stands for the exclamation mark, so a doubled one cannot be written. -/
inductive TypeExpr
  | named (name : Name) (required : Bool)
  | list (item : TypeExpr) (required : Bool)
  deriving DecidableEq, Repr

namespace TypeExpr

/-- The named type at the core of a reference. -/
def core : TypeExpr → Name
  | named name _ => name
  | list item _ => item.core

def isRequired : TypeExpr → Bool
  | named _ required => required
  | list _ required => required

/-- The number of list and required wrappers around the named type. -/
def wrappers : TypeExpr → Nat
  | named _ required => required.toNat
  | list item required => item.wrappers + 1 + required.toNat

/-- The written form of a reference. -/
def text : TypeExpr → String
  | named name required => name ++ (if required then "!" else "")
  | list item required => "[" ++ item.text ++ "]" ++ (if required then "!" else "")

end TypeExpr

/-- A value. Numbers keep their spelling, and the fields of an object their order. -/
inductive Value
  | var (name : Name)
  | int (spelling : String)
  | float (spelling : String)
  | string (value : String)
  | boolean (value : Bool)
  | null
  | enum (name : Name)
  | list (items : List Value)
  | object (fields : List (Name × Value))

/-- A directive applied to some element. -/
structure Directive where
  name : Name
  arguments : List (Name × Value) := []

/-- An argument or an input field, as it is defined. -/
structure InputDef where
  description : Option String := none
  name : Name
  type : TypeExpr
  default : Option Value := none
  directives : List Directive := []

/-- A field of an object or interface type. -/
structure FieldDef where
  description : Option String := none
  name : Name
  arguments : List InputDef := []
  type : TypeExpr
  directives : List Directive := []

/-- One of the values of an enum type. -/
structure EnumValueDef where
  description : Option String := none
  name : Name
  directives : List Directive := []

/-- The content of a type, by its kind. -/
inductive TypeBody
  | scalar
  | object (interfaces : List Name) (fields : List FieldDef)
  | interface (interfaces : List Name) (fields : List FieldDef)
  | union (members : List Name)
  | enum (values : List EnumValueDef)
  | inputObject (fields : List InputDef)

/-- The six kinds of named types. -/
inductive TypeKind
  | scalar | object | interface | union | enum | inputObject
  deriving DecidableEq, Repr

def TypeBody.kind : TypeBody → TypeKind
  | scalar => .scalar
  | object .. => .object
  | interface .. => .interface
  | union _ => .union
  | enum _ => .enum
  | inputObject _ => .inputObject

/-- The keyword that starts a definition of the kind. -/
def TypeKind.keyword : TypeKind → String
  | scalar => "scalar"
  | object => "type"
  | interface => "interface"
  | union => "union"
  | enum => "enum"
  | inputObject => "input"

def TypeKind.all : List TypeKind := [.scalar, .object, .interface, .union, .enum, .inputObject]

/-- A type definition. -/
structure TypeDef where
  description : Option String := none
  name : Name
  directives : List Directive := []
  body : TypeBody

/-- A type extension: what it adds to the type of that name. -/
structure TypeExtension where
  name : Name
  directives : List Directive := []
  body : TypeBody

/-- The kinds of operations. -/
inductive OperationKind
  | query | mutation | subscription
  deriving DecidableEq, Repr

def OperationKind.all : List OperationKind := [.query, .mutation, .subscription]

def OperationKind.name : OperationKind → Name
  | query => "query"
  | mutation => "mutation"
  | subscription => "subscription"

def OperationKind.ofName? (s : Name) : Option OperationKind :=
  all.find? (·.name == s)

/-- A schema definition: the root type of each kind of operation it names. -/
structure SchemaDef where
  description : Option String := none
  directives : List Directive := []
  roots : List (OperationKind × Name) := []

/-- What a schema extension adds to the schema definition. -/
structure SchemaExtension where
  directives : List Directive := []
  roots : List (OperationKind × Name) := []

/-- The places where a directive may be allowed. -/
inductive DirectiveLocation
  | query | mutation | subscription | field | fragmentDefinition | fragmentSpread | inlineFragment | variableDefinition
  | schema | scalar | object | fieldDefinition | argumentDefinition | interface | union | enum | enumValue | inputObject
  | inputFieldDefinition
  deriving DecidableEq, Repr

namespace DirectiveLocation

def all : List DirectiveLocation :=
  [query, mutation, subscription, field, fragmentDefinition, fragmentSpread, inlineFragment, variableDefinition,
    schema, scalar, object, fieldDefinition, argumentDefinition, interface, union, enum, enumValue, inputObject,
    inputFieldDefinition]

def name : DirectiveLocation → Name
  | query => "QUERY"
  | mutation => "MUTATION"
  | subscription => "SUBSCRIPTION"
  | field => "FIELD"
  | fragmentDefinition => "FRAGMENT_DEFINITION"
  | fragmentSpread => "FRAGMENT_SPREAD"
  | inlineFragment => "INLINE_FRAGMENT"
  | variableDefinition => "VARIABLE_DEFINITION"
  | schema => "SCHEMA"
  | scalar => "SCALAR"
  | object => "OBJECT"
  | fieldDefinition => "FIELD_DEFINITION"
  | argumentDefinition => "ARGUMENT_DEFINITION"
  | interface => "INTERFACE"
  | union => "UNION"
  | enum => "ENUM"
  | enumValue => "ENUM_VALUE"
  | inputObject => "INPUT_OBJECT"
  | inputFieldDefinition => "INPUT_FIELD_DEFINITION"

def ofName? (s : Name) : Option DirectiveLocation :=
  all.find? (·.name == s)

end DirectiveLocation

/-- A directive definition. -/
structure DirectiveDef where
  description : Option String := none
  name : Name
  arguments : List InputDef := []
  repeatable : Bool := false
  locations : List DirectiveLocation

/-- A definition of a document. -/
inductive Definition
  | operation
  | fragment
  | schema (definition : SchemaDef)
  | directive (definition : DirectiveDef)
  | type (definition : TypeDef)
  | schemaExtension (content : SchemaExtension)
  | typeExtension (content : TypeExtension)

/-- Whether the definition is an operation or a fragment, which no schema may hold. -/
def Definition.isExecutable : Definition → Bool
  | operation | fragment => true
  | _ => false

abbrev Document := List Definition

end SchemaWeave.Graphql
