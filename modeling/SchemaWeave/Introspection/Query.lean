import SchemaWeave.Graphql.Document

/-!
# The introspection query

The query is a value with two readings: its text, which is sent to a server (`Query.text`), and its selections, which are
answered from a schema at hand. It asks for deprecated fields and enum values, and for type references with up to
`wrapperLevels` wrappers around a named type.
-/

namespace SchemaWeave.Introspection

open Graphql

/-- A selection of a query. A spread carries what its fragment selects. -/
inductive Selection
  /-- a field without selections -/
  | leaf (name : Name)
  /-- a field with selections, whose own selections are written on one line if `inOneLine` -/
  | node (name : Name) (includeDeprecated : Bool) (inOneLine : Bool) (selections : List Selection)
  /-- the selections of a named fragment -/
  | spread (fragment : Name) (selections : List Selection)

/-- A fragment of a query. -/
structure QueryFragment where
  name : Name
  type : Name
  selections : List Selection

/-- The spread of a fragment. -/
def QueryFragment.spread (f : QueryFragment) : Selection := .spread f.name f.selections

/-- A query with a name, and the fragments that it spreads. -/
structure Query where
  name : Name
  selections : List Selection
  fragments : List QueryFragment

/-- The greatest number of wrappers around a named type that the query can tell. -/
def wrapperLevels : Nat := 7

/-- A type reference with at most so many wrappers. -/
def typeRefSelections : (levels : Nat) → List Selection
  | 0 => [.leaf "kind", .leaf "name"]
  | levels + 1 => [.leaf "kind", .leaf "name", .node "ofType" false false (typeRefSelections levels)]

def typeRefFragment : QueryFragment :=
  { name := "TypeRef", type := "__Type", selections := typeRefSelections wrapperLevels }

/-- A field of the query that gives a type reference. -/
def typeRefField (name : Name) : Selection := .node name false false [typeRefFragment.spread]

def inputValueFragment : QueryFragment :=
  { name := "InputValue", type := "__InputValue",
    selections := [.leaf "name", .leaf "description", typeRefField "type", .leaf "defaultValue"] }

def fullTypeFragment : QueryFragment :=
  { name := "FullType", type := "__Type",
    selections := [.leaf "kind", .leaf "name", .leaf "description",
      .node "fields" true false [.leaf "name", .leaf "description",
        .node "args" false false [inputValueFragment.spread], typeRefField "type", .leaf "isDeprecated",
        .leaf "deprecationReason"],
      .node "inputFields" false false [inputValueFragment.spread],
      typeRefField "interfaces",
      .node "enumValues" true false [.leaf "name", .leaf "description", .leaf "isDeprecated", .leaf "deprecationReason"],
      typeRefField "possibleTypes"] }

/-- The query for all that the artifact and the printed schema need. -/
def introspectionQuery : Query :=
  { name := "IntrospectionQuery",
    selections := [.node "__schema" false false [
      .node "queryType" false true [.leaf "name"],
      .node "mutationType" false true [.leaf "name"],
      .node "subscriptionType" false true [.leaf "name"],
      .node "types" false false [fullTypeFragment.spread],
      .node "directives" false false [.leaf "name", .leaf "description", .leaf "locations",
        .node "args" false false [inputValueFragment.spread]]]],
    fragments := [fullTypeFragment, inputValueFragment, typeRefFragment] }

/-- The start of a line at a nesting level. -/
def queryMargin (level : Nat) : List Char := List.replicate (2 * level) ' '

mutual

/-- A selection on lines of its own. -/
def Selection.chars (level : Nat) : Selection → List Char
  | .leaf name => queryMargin level ++ name.toList ++ ['\n']
  | .spread fragment _ => queryMargin level ++ ['.', '.', '.'] ++ fragment.toList ++ ['\n']
  | .node name includeDeprecated inOneLine selections =>
    queryMargin level ++ name.toList ++
      (if includeDeprecated then "(includeDeprecated: true)".toList else []) ++
      if inOneLine then [' ', '{'] ++ selectionWords selections ++ [' ', '}', '\n']
      else [' ', '{', '\n'] ++ selectionLines (level + 1) selections ++ queryMargin level ++ ['}', '\n']

def selectionLines (level : Nat) : List Selection → List Char
  | [] => []
  | s :: ss => s.chars level ++ selectionLines level ss

/-- The names of selections side by side. -/
def selectionWords : List Selection → List Char
  | [] => []
  | .leaf name :: ss => ' ' :: name.toList ++ selectionWords ss
  | .node name _ _ _ :: ss => ' ' :: name.toList ++ selectionWords ss
  | .spread fragment _ :: ss => ' ' :: '.' :: '.' :: '.' :: fragment.toList ++ selectionWords ss

end

/-- A block of selections after its heading. -/
def blockChars (heading : List Char) (selections : List Selection) : List Char :=
  '\n' :: heading ++ [' ', '{', '\n'] ++ selectionLines 1 selections ++ ['}', '\n']

/-- The text of a query. -/
def Query.text (q : Query) : String :=
  String.ofList (blockChars ("query ".toList ++ q.name.toList) q.selections ++
    q.fragments.flatMap fun f =>
      blockChars ("fragment ".toList ++ f.name.toList ++ " on ".toList ++ f.type.toList) f.selections)

end SchemaWeave.Introspection
