import SchemaWeave.Schema.Builtin
import SchemaWeave.Schema.Diagnostic

/-!
# Definitions that need themselves

An input object must not need a value of its own type to be built, and a directive must not be applied within its own
definition. Both searches walk along a path of names that starts at the definition in question; they report a return to
that start, pass over a return to any other name of the path, and give up where the path grows past `pathLimit`. The
search for a directive goes through types as well, and these make a path of their own.
-/

namespace SchemaWeave.Schema

open Graphql

/-- The greatest number of names on a path, the first one included. -/
def pathLimit : Nat := 32

/-- Why a search ends. -/
inductive PathFault
  | returned
  | tooLong
  deriving DecidableEq

/-- A step of a search to a name: nothing if the name is on the path, unless it is where the path starts. -/
def step (start : Name) (path : List Name) (name : Name) (visit : Except PathFault Unit) : Except PathFault Unit :=
  if name == start then .error .returned
  else if path.contains name then .ok ()
  else visit

/-- The input object that a field needs: its type is required and no list. -/
def neededObject? (s : Schema) (d : InputDef) : Option (List InputDef × Name) :=
  match d.type with
  | .named name true =>
    match s.type? name with
    | some { body := .inputObject fields, .. } => some (fields, name)
    | _ => none
  | _ => none

/-- Walks through the input objects that fields need; `left` more names fit the path. -/
def walkInputs (s : Schema) (start : Name) : (left : Nat) → (path : List Name) → List InputDef → Except PathFault Unit
  | left, path, fields => fields.forM fun d =>
    match neededObject? s d with
    | none => .ok ()
    | some (inner, name) =>
      step start path name
        (match left with
          | 0 => .error .tooLong
          | left + 1 => walkInputs s start left (name :: path) inner)

/-- The diagnostics for the fields of an input object that may need itself. -/
def checkInputCycle (s : Schema) (name : Name) (fields : List InputDef) : List Diagnostic :=
  match walkInputs s name (pathLimit - 1) [name] fields with
  | .ok () => []
  | .error .returned => [.inputObjectCycle name]
  | .error .tooLong => [.tooMuchNesting name]

/-- What a type contributes to the search for a directive: the directives on it and on its enum values, and its input
fields. -/
def typeContributions (t : TypeDef) : List Directive × List InputDef :=
  match t.body with
  | .enum values => (t.directives ++ values.flatMap (·.directives), [])
  | .inputObject fields => (t.directives, fields)
  | _ => (t.directives, [])

/-- Walks through applied directives, then through inputs with the directives on them and their types; `left` more types
fit the path of types. Built-in types are not looked into. `visit` follows a directive from a path of types. -/
def walkTypes (s : Schema) (visit : (left : Nat) → (path : List Name) → Directive → Except PathFault Unit) :
    (left : Nat) → (path : List Name) → List Directive → List InputDef → Except PathFault Unit
  | left, path, applied, inputs => do
    applied.forM (visit left path)
    inputs.forM fun input => do
      input.directives.forM (visit left path)
      let name := input.type.core
      match s.type? name with
      | none => .ok ()
      | some t =>
        if path.contains name || Builtin.isBuiltinType name then .ok ()
        else
          let (directives, fields) := typeContributions t
          match left with
          | 0 => .error .tooLong
          | left + 1 => walkTypes s visit left (name :: path) directives fields

/-- Follows an applied directive to its definition; `left` more directives fit the path of directives. -/
def walkDirective (s : Schema) (start : Name) : (left : Nat) → (path : List Name) → (typesLeft : Nat) →
    (typePath : List Name) → Directive → Except PathFault Unit
  | left, path, typesLeft, typePath, d =>
    step start path d.name
      (match s.directive? d.name, left with
        | none, _ => .ok ()
        | some _, 0 => .error .tooLong
        | some definition, left + 1 =>
          walkTypes s (walkDirective s start left (d.name :: path)) typesLeft typePath [] definition.arguments)

/-- The diagnostics for a directive definition that may apply itself. -/
def checkDirectiveCycle (s : Schema) (d : DirectiveDef) : List Diagnostic :=
  match walkTypes s (walkDirective s d.name (pathLimit - 1) [d.name]) pathLimit [] [] d.arguments with
  | .ok () => []
  | .error .returned => [.directiveCycle d.name]
  | .error .tooLong => [.tooMuchNesting d.name]

end SchemaWeave.Schema
