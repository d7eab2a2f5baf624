import SchemaWeave.Schema.Basic
import SchemaWeave.Schema.Diagnostic

/-!
# Implementing interfaces

A type that implements an interface implements all that the interface implements, and has each of its fields, with a type
at least as narrow, the same arguments, and no further argument that has to be given.
-/

namespace SchemaWeave.Schema

open Graphql

/-- The interface with a name. -/
def interface? (s : Schema) (name : Name) : Option TypeDef := (s.type? name).filter (·.kind = .interface)

/-- Whether values of one named type are values of another: the types are the same, or the second is a union with the
first as a member or an interface that the first implements. -/
def isPossibleType (s : Schema) (actual expected : Name) : Bool :=
  actual == expected ||
    match s.type? expected with
    | some { body := .union members, .. } => members.contains actual
    | some { body := .interface .., .. } => (s.type? actual).elim false (·.interfaces.contains expected)
    | _ => false

/-- Whether a field of one type satisfies an interface field of another. -/
def isSubtype (s : Schema) : (actual expected : TypeExpr) → Bool
  | .named a r, .named e r' => (r || !r') && isPossibleType s a e
  | .list a r, .list e r' => (r || !r') && isSubtype s a e
  | _, _ => false

/-- The diagnostics for a field that an interface asks for. -/
def checkInterfaceField (s : Schema) (type interface : Name) (expected : FieldDef) (fields : List FieldDef) :
    List Diagnostic :=
  match fields.find? (·.name == expected.name) with
  | none => [.missingInterfaceField type interface expected.name]
  | some f =>
    (if isSubtype s f.type expected.type then [] else [.fieldNotSubtype type interface f.name expected.type f.type]) ++
      expected.arguments.flatMap (fun e =>
        match f.arguments.find? (·.name == e.name) with
        | none => [.missingInterfaceArgument type interface f.name e.name]
        | some a => if a.type = e.type then [] else [.argumentTypeDiffers type interface f.name e.name e.type a.type]) ++
      (f.arguments.filter fun a => a.isRequired && !expected.arguments.any (·.name == a.name)).map
        fun a => .extraRequiredArgument type interface f.name a.name

/-- The diagnostics for the interfaces that a type implements. -/
def checkInterfaces (s : Schema) (t : TypeDef) : List Diagnostic :=
  let implemented := t.interfaces.filterMap (interface? s)
  (t.interfaces.filter fun i => (interface? s i).isNone).map .unknownType ++
    (if t.kind = .interface then
      (t.interfaces.filter (· == t.name)).map .interfaceImplementsItself
     else []) ++
    implemented.flatMap (fun i =>
      (i.interfaces.filter (!t.interfaces.contains ·)).map (.missingTransitiveInterface t.name i.name ·)) ++
    implemented.flatMap fun i => i.fields.flatMap (checkInterfaceField s t.name i.name · t.fields)

end SchemaWeave.Schema
