import SchemaWeave.Schema.Rules.Value

/-!
# Applied directives

A directive has to be defined, allowed where it stands, repeated only if it may be, and given its arguments: each once,
each known, each of its type, and all that are required. Of an undefined directive only its repeated arguments are
reported beside it.
-/

namespace SchemaWeave.Schema

open Graphql

/-- The names that come again after their first time, once for each further time. -/
def repeated : (seen : List Name) → List Name → List Name
  | _, [] => []
  | seen, n :: ns => if seen.contains n then n :: repeated seen ns else repeated (n :: seen) ns

/-- The diagnostics for the arguments of a directive with a definition. -/
def checkArguments (s : Schema) (d : Directive) (definition : DirectiveDef) : List Diagnostic :=
  d.arguments.flatMap (fun (name, value) =>
      match definition.arguments.find? (·.name == name) with
      | none => [.unknownArgument name d.name]
      | some a => checkValue s a.type value) ++
    (definition.arguments.filter fun a => a.isRequired && (d.argument? a.name).elim true (· matches .null)).map
      fun a => .missingArgument a.name d.name

/-- The diagnostics for one directive at a location. -/
def checkDirective (s : Schema) (location : DirectiveLocation) (d : Directive) : List Diagnostic :=
  (repeated [] (d.arguments.map (·.1))).map .duplicateArgument ++
    match s.directive? d.name with
    | none => [.unknownDirective d.name]
    | some definition =>
      (if definition.locations.contains location then [] else [.directiveMisplaced d.name location]) ++
        checkArguments s d definition

/-- Whether a directive may be applied more than once. One without a definition may. -/
def isRepeatable (s : Schema) (name : Name) : Bool := (s.directive? name).elim true (·.repeatable)

/-- The diagnostics for the directives at a location. -/
def checkDirectives (s : Schema) (location : DirectiveLocation) (ds : List Directive) : List Diagnostic :=
  ds.flatMap (checkDirective s location) ++
    ((repeated [] (ds.map (·.name))).filter (!isRepeatable s ·)).map .directiveRepeated

end SchemaWeave.Schema
