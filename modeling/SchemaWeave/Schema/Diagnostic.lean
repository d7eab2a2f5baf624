import SchemaWeave.Graphql.Document

/-!
# What can be wrong with a schema

Each diagnostic is a cause with the names it concerns; its wording is `Diagnostic.message` alone.
-/

namespace SchemaWeave.Schema

open Graphql

/-- A kind of type as a message names it. -/
def kindPhrase : TypeKind → String
  | .scalar => "a scalar type"
  | .object => "an object type"
  | .interface => "an interface type"
  | .union => "a union type"
  | .enum => "an enum type"
  | .inputObject => "an input object type"

/-- A kind of type without its article. -/
def kindWord : TypeKind → String
  | .scalar => "scalar type"
  | .object => "object type"
  | .interface => "interface type"
  | .union => "union type"
  | .enum => "enum type"
  | .inputObject => "input object type"

/-- The elements whose names may not start with two underscores. -/
inductive NamedElement
  | field | argument | inputField | enumValue | directive | type (kind : TypeKind)

def NamedElement.phrase : NamedElement → String
  | field => "a field"
  | argument => "an argument"
  | inputField => "an input object field"
  | enumValue => "an enum value"
  | directive => "a directive definition"
  | type kind => kindPhrase kind

/-- A fault of a schema. -/
inductive Diagnostic
  | unreadable
  | multipleSchemas
  | typeDefinedTwice (type : Name)
  | directiveDefinedTwice (directive : Name)
  | builtinScalarDefined
  | orphanSchemaExtension
  | orphanTypeExtension (type : Name)
  | extensionKind (extension : TypeKind) (type : Name) (definition : TypeKind)
  | duplicateRoot (kind : OperationKind)
  | duplicateInterface (kind : TypeKind) (type interface : Name)
  | duplicateField (field : Name) (kind : TypeKind) (type : Name)
  | duplicateEnumValue (value type : Name)
  | duplicateMember (member type : Name)
  | missingQueryRoot
  | rootNotObject (type : Name)
  | rootUsedTwice (type : Name)
  | unknownType (type : Name)
  | unknownDirective (directive : Name)
  | noFields (type : Name)
  | noEnumValues (type : Name)
  | noMembers (type : Name)
  | noInputFields (type : Name)
  | notOutput (field : Name)
  | notInput (input : Name)
  | memberNotObject (member : Name)
  | duplicateArgumentDef (argument : Name)
  | duplicateArgument (argument : Name)
  | unknownArgument (argument directive : Name)
  | missingArgument (argument directive : Name)
  | directiveRepeated (directive : Name)
  | directiveMisplaced (directive : Name) (location : DirectiveLocation)
  | missingInterfaceField (type interface field : Name)
  | fieldNotSubtype (type interface field : Name) (required actual : TypeExpr)
  | missingInterfaceArgument (type interface field argument : Name)
  | argumentTypeDiffers (type interface field argument : Name) (required actual : TypeExpr)
  | extraRequiredArgument (type interface field argument : Name)
  | missingTransitiveInterface (type interface missing : Name)
  | interfaceImplementsItself (interface : Name)
  | inputObjectCycle (type : Name)
  | directiveCycle (directive : Name)
  | tooMuchNesting (name : Name)
  | reservedName (element : NamedElement) (name : Name)
  | valueKind (expected : TypeExpr) (found : String)
  | unknownEnumValue (value type : Name)
  | unknownInputField (field type : Name)
  | missingInputField (field type : Name)
  | intRange
  | floatRange

def Diagnostic.message : Diagnostic → String
  | unreadable => "syntax error"
  | multipleSchemas => "must not have multiple `schema` definitions"
  | typeDefinedTwice type => s!"the type `{type}` is defined multiple times in the schema"
  | directiveDefinedTwice directive => s!"the directive `@{directive}` is defined multiple times in the schema"
  | builtinScalarDefined => "built-in scalar definitions must be omitted"
  | orphanSchemaExtension => "schema extension without a schema definition"
  | orphanTypeExtension type => s!"type extension for undefined type `{type}`"
  | extensionKind extension type definition =>
    s!"adding {kindPhrase extension} extension, but `{type}` is {kindPhrase definition}"
  | duplicateRoot kind => s!"duplicate definitions for the `{kind.name}` root operation type"
  | duplicateInterface kind type interface =>
    s!"{kindWord kind} `{type}` implements interface `{interface}` more than once"
  | duplicateField field kind type => s!"duplicate definitions for the `{field}` field of {kindWord kind} `{type}`"
  | duplicateEnumValue value type => s!"duplicate definitions for the `{value}` value of enum type `{type}`"
  | duplicateMember member type => s!"duplicate definitions for the `{member}` member of union type `{type}`"
  | missingQueryRoot => "missing query root operation type in schema definition"
  | rootNotObject type => s!"`{type}` field must return an object type"
  | rootUsedTwice type => s!"the same type `{type}` must not be used for multiple root operation types"
  | unknownType type => s!"cannot find type `{type}` in this document"
  | unknownDirective directive => s!"cannot find directive `@{directive}` in this document"
  | noFields type => s!"`{type}` has no fields"
  | noEnumValues type => s!"`{type}` has no enum values"
  | noMembers type => s!"`{type}` has no member types"
  | noInputFields type => s!"`{type}` has no input values"
  | notOutput field => s!"`{field}` field must return an output type"
  | notInput input => s!"`{input}` field must be of an input type"
  | memberNotObject member => s!"union member `{member}` must be an object type"
  | duplicateArgumentDef argument => s!"the value `{argument}` is defined multiple times"
  | duplicateArgument argument => s!"the argument `{argument}` is provided multiple times"
  | unknownArgument argument directive => s!"the argument `{argument}` is not supported by `@{directive}`"
  | missingArgument argument directive => s!"the required argument `@{directive}({argument}:)` is not provided"
  | directiveRepeated directive => s!"non-repeatable directive {directive} can only be used once per location"
  | directiveMisplaced directive location => s!"{directive} directive is not supported for {location.name} location"
  | missingInterfaceField type interface field =>
    s!"type `{type}` does not satisfy interface `{interface}`: missing field `{field}`"
  | fieldNotSubtype type interface field required actual =>
    s!"interface field `{interface}.{field}` expects type `{required.text}` but `{type}.{field}` of type " ++
      s!"`{actual.text}` is not a proper subtype"
  | missingInterfaceArgument type interface field argument =>
    s!"interface field `{interface}.{field}` expects argument `{argument}` but `{type}.{field}` does not provide it"
  | argumentTypeDiffers type interface field argument required actual =>
    s!"interface field `{interface}.{field}` expects argument `{argument}` of type `{required.text}` but " ++
      s!"`{type}.{field}` provides type `{actual.text}`"
  | extraRequiredArgument type interface field argument =>
    s!"`{type}.{field}` has extra required argument `{argument}` not present in interface `{interface}.{field}`"
  | missingTransitiveInterface type interface missing =>
    s!"interface `{type}` declares that it implements `{interface}`, but to do so it must also implement `{missing}`"
  | interfaceImplementsItself interface => s!"interface {interface} cannot implement itself"
  | inputObjectCycle type => s!"`{type}` input object cannot reference itself"
  | directiveCycle directive => s!"`{directive}` directive definition cannot reference itself"
  | tooMuchNesting name => s!"`{name}` contains too much nesting"
  | reservedName element name =>
    s!"{element.phrase} cannot be named `{name}` as names starting with two underscores are reserved"
  | valueKind expected found => s!"expected value of type {expected.text}, found {found}"
  | unknownEnumValue value type => s!"value `{value}` does not exist on `{type}`"
  | unknownInputField field type => s!"field `{field}` does not exist on `{type}`"
  | missingInputField field type => s!"the required field `{type}.{field}` is not provided"
  | intRange => "int cannot represent non 32-bit signed integer value"
  | floatRange => "float cannot represent non-finite 64-bit floating point value"

end SchemaWeave.Schema
