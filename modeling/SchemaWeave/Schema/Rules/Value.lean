import SchemaWeave.Schema.Basic
import SchemaWeave.Schema.Diagnostic
import SchemaWeave.Floating.Spelling

/-!
# Values against their types

`checkValue` compares the value of a directive's argument with the type that the directive's definition gives it. A custom
scalar type accepts every value; lists around a scalar type are passed over for a value that is no list.
-/

namespace SchemaWeave.Schema

open Graphql

/-- A value as a message names it. -/
def valuePhrase : Value → String
  | .var _ => "a variable"
  | .int _ => "an integer"
  | .float _ => "a float"
  | .string _ => "a string"
  | .boolean _ => "a boolean"
  | .null => "null"
  | .enum _ => "an enum"
  | .list _ => "a list"
  | .object _ => "an input object"

/-- The type of the items of a list type; any other type is that of its own items. -/
def itemType : TypeExpr → TypeExpr
  | .list item _ => item
  | t => t

def isList : TypeExpr → Bool
  | .list .. => true
  | .named .. => false

/-- Whether values of a type may be given as input. -/
def isInputKind : TypeKind → Bool
  | .scalar | .enum | .inputObject => true
  | _ => false

/-- Whether values of a type may be returned. -/
def isOutputKind : TypeKind → Bool
  | .inputObject => false
  | _ => true

/-- A scalar type that the schema defines itself. -/
def isCustomScalar (t : TypeDef) : Bool := t.kind = .scalar && !builtinScalars.contains t.name

/-- Whether the spelling of an integer fits 32 bits with a sign. -/
def fitsInt32 (spelling : String) : Bool :=
  match spelling.toList with
  | '-' :: digits => Floating.naturalOf digits ≤ Nat.pow 2 31
  | digits => Floating.naturalOf digits < Nat.pow 2 31

/-- The rule for a scalar value: the type it is given for, the built-in scalars it fits, and a check for each. -/
def checkScalarValue (t : TypeDef) (type : TypeExpr) (v : Value) (fits : List (Name × List Diagnostic)) :
    List Diagnostic :=
  if isCustomScalar t then []
  else match fits.lookup t.name with
    | some found => if t.kind = .scalar then found else [.valueKind type (valuePhrase v)]
    | none => [.valueKind type (valuePhrase v)]

/-- The diagnostics for a spelling without a finite double. -/
def checkFinite (spelling : String) : List Diagnostic :=
  if (Floating.Spelling.ofChars spelling.toList).isFinite then [] else [.floatRange]

/-- The diagnostics that depend on the named type of a reference; none if it is undefined. -/
def withType (s : Schema) (type : TypeExpr) (rule : TypeDef → List Diagnostic) : List Diagnostic :=
  match s.type? type.core with
  | none => []
  | some t => rule t

mutual

/-- The diagnostics for a value where a type is expected. -/
def checkValue (s : Schema) (type : TypeExpr) : Value → List Diagnostic
  | .int spelling =>
    withType s type fun t => checkScalarValue t type (.int spelling)
      [("ID", []), ("Int", if fitsInt32 spelling then [] else [.intRange]), ("Float", checkFinite spelling)]
  | .float spelling =>
    withType s type fun t => checkScalarValue t type (.float spelling) [("Float", checkFinite spelling)]
  | .string text => withType s type fun t => checkScalarValue t type (.string text) [("String", []), ("ID", [])]
  | .boolean b => withType s type fun t => checkScalarValue t type (.boolean b) [("Boolean", [])]
  | .null => withType s type fun _ => if type.isRequired then [.valueKind type "null"] else []
  | .enum name =>
    withType s type fun t =>
      match t.body with
      | .enum values => if values.any (·.name == name) then [] else [.unknownEnumValue name t.name]
      | _ => checkScalarValue t type (.enum name) []
  | .var name => withType s type fun t => checkScalarValue t type (.var name) []
  | .list items =>
    withType s type fun t =>
      if isList type || isCustomScalar t then
        if isInputKind t.kind then checkItems s (itemType type) items
        else [.valueKind (itemType type) (valuePhrase (.list []))]
      else [.valueKind type (valuePhrase (.list []))]
  | .object fields =>
    withType s type fun t =>
      match t.body with
      | .inputObject defs =>
        (match fields.find? fun f => !defs.any (·.name == f.1) with
          | some (name, _) => [.unknownInputField name t.name]
          | none => []) ++
        (defs.filter fun d => d.isRequired &&
            ((fields.lookup d.name).isNone || fields.any fun f => f.1 == d.name && f.2 matches .null)).map
          (fun d => .missingInputField d.name t.name) ++
        checkFields s defs [] fields
      | _ => if isCustomScalar t then [] else [.valueKind type (valuePhrase (.object []))]

/-- The diagnostics for the items of a list. -/
def checkItems (s : Schema) (type : TypeExpr) : List Value → List Diagnostic
  | [] => []
  | v :: vs => checkValue s type v ++ checkItems s type vs

/-- The diagnostics for the values of an input object's fields; of a field given twice the first value counts. -/
def checkFields (s : Schema) (defs : List InputDef) (seen : List Name) : List (Name × Value) → List Diagnostic
  | [] => []
  | (name, v) :: fields =>
    (if seen.contains name then []
      else match defs.find? (·.name == name) with
        | none => []
        | some d => checkValue s d.type v) ++
      checkFields s defs (name :: seen) fields

end

end SchemaWeave.Schema
