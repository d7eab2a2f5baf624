import SchemaWeave.Introspection.Model
import SchemaWeave.Graphql.Block
import SchemaWeave.Graphql.Builtin
import SchemaWeave.Text.Blank
import SchemaWeave.Text.Hex

/-!
# The schema language text of an introspection result

`SchemaInfo.sdl` writes the schema definition if a root type has a name of its own, then the directives, then the types;
what every schema has is left out. A description is a block string if it has a line end and no control character that a
block string could not carry, and a quoted string otherwise.
-/

namespace SchemaWeave.Introspection

open Text Graphql

/-- One character of a quoted string: quotes, backslashes and all control characters are escaped. -/
def escapeChar (c : Char) : List Char :=
  if c = '\\' then ['\\', '\\']
  else if c = '"' then ['\\', '"']
  else if c = '\n' then ['\\', 'n']
  else if c = '\r' then ['\\', 'r']
  else if c = '\t' then ['\\', 't']
  else if isControl c then '\\' :: 'u' :: hexQuad true c.toNat
  else [c]

/-- The inside of a quoted string. -/
def escapeString (cs : List Char) : List Char := cs.flatMap escapeChar

/-- A quoted string. -/
def quotedString (cs : List Char) : List Char := '"' :: (escapeString cs ++ ['"'])

/-- Whether a text has a control character other than line feed and tab. -/
def hasBlockBreaker (cs : List Char) : Bool :=
  cs.any fun c => isControl c && c != '\n' && c != '\t'

/-- The blanks in front of a line at a nesting level. -/
def margin (level : Nat) : List Char := List.replicate (2 * level) ' '

/-- Whether a description is written as a block string. -/
def isBlockDescription (d : List Char) : Bool := d.contains '\n' && !hasBlockBreaker d

/-- A description on lines of its own. Only the delimiters of a block string are indented. -/
def descriptionText (level : Nat) : Option String → List Char
  | none => []
  | some d =>
    let cs := d.toList
    if isBlockDescription cs then
      margin level ++ ['"', '"', '"', '\n'] ++ escapeTripleQuotes cs ++ '\n' :: margin level ++ ['"', '"', '"', '\n']
    else margin level ++ quotedString cs ++ ['\n']

/-- Texts with a separator between them. -/
def separate (separator : List Char) : List (List Char) → List Char
  | [] => []
  | [t] => t
  | t :: ts => t ++ separator ++ separate separator ts

/-- An argument or input field without its description. -/
def InputValue.sdl (v : InputValue) : List Char :=
  v.name.toList ++ [':', ' '] ++ v.type.text.toList ++
    (match v.defaultValue with
      | none => []
      | some d => [' ', '=', ' '] ++ d.toList)

/-- The arguments in parentheses; nothing if there are none. -/
def argumentsSdl (args : List InputValue) : List Char :=
  if args.isEmpty then [] else '(' :: separate [',', ' '] (args.map InputValue.sdl) ++ [')']

/-- The mark of a deprecated element, with its reason if it has one. -/
def deprecationSdl (isDeprecated : Bool) (reason : Option String) : List Char :=
  if !isDeprecated then []
  else " @deprecated".toList ++
    (match reason with
      | none => []
      | some r => "(reason: ".toList ++ quotedString r.toList ++ [')'])

def Field.sdl (f : Field) : List Char :=
  descriptionText 1 f.description ++ margin 1 ++ f.name.toList ++ argumentsSdl f.args ++ [':', ' '] ++
    f.type.text.toList ++ deprecationSdl f.isDeprecated f.deprecationReason ++ ['\n']

/-- The fields in braces; nothing if there are none, since empty braces are not allowed. -/
def fieldsSdl (fields : List Field) : List Char :=
  if fields.isEmpty then [] else [' ', '{', '\n'] ++ fields.flatMap Field.sdl ++ ['}']

def EnumValue.sdl (v : EnumValue) : List Char :=
  descriptionText 1 v.description ++ margin 1 ++ v.name.toList ++
    deprecationSdl v.isDeprecated v.deprecationReason ++ ['\n']

def InputValue.fieldSdl (v : InputValue) : List Char :=
  descriptionText 1 v.description ++ margin 1 ++ v.sdl ++ ['\n']

/-- The implemented interfaces; nothing if there are none. -/
def implementsSdl (interfaces : List String) : List Char :=
  if interfaces.isEmpty then []
  else " implements ".toList ++ separate [' ', '&', ' '] (interfaces.map String.toList)

/-- A type definition. -/
def TypeInfo.sdl (t : TypeInfo) : List Char :=
  descriptionText 0 t.description ++
    match t.content with
    | .scalar => "scalar ".toList ++ t.name.toList ++ ['\n']
    | .object fields interfaces =>
      "type ".toList ++ t.name.toList ++ implementsSdl interfaces ++ fieldsSdl fields
    | .interface fields interfaces _ =>
      "interface ".toList ++ t.name.toList ++ implementsSdl (interfaces.getD []) ++ fieldsSdl fields
    | .union possibleTypes =>
      "union ".toList ++ t.name.toList ++ [' ', '=', ' '] ++
        separate [' ', '|', ' '] (possibleTypes.map String.toList)
    | .enum values =>
      "enum ".toList ++ t.name.toList ++ [' ', '{', '\n'] ++ values.flatMap EnumValue.sdl ++ ['}']
    | .inputObject fields =>
      "input ".toList ++ t.name.toList ++ [' ', '{', '\n'] ++ fields.flatMap InputValue.fieldSdl ++ ['}']

def DirectiveInfo.sdl (d : DirectiveInfo) : List Char :=
  descriptionText 0 d.description ++ "directive @".toList ++ d.name.toList ++ argumentsSdl d.args ++ " on ".toList ++
    separate [' ', '|', ' '] (d.locations.map String.toList)

/-- Whether a type is written out. -/
def TypeInfo.isPrinted (t : TypeInfo) : Bool := !isReserved t.name && !builtinScalars.contains t.name

/-- Whether a directive is written out. -/
def DirectiveInfo.isPrinted (d : DirectiveInfo) : Bool := !builtinDirectives.contains d.name

/-- The roots of a schema: the word for the kind of operation, the name a root has by default, and its name here. -/
def SchemaInfo.roots (s : SchemaInfo) : List (String × String × Option String) :=
  [("query", "Query", s.queryType), ("mutation", "Mutation", s.mutationType),
    ("subscription", "Subscription", s.subscriptionType)]

/-- Whether a root type has a name of its own, so that a schema definition is needed. -/
def SchemaInfo.needsDefinition (s : SchemaInfo) : Bool :=
  s.roots.any fun (_, standard, name) => name.elim false (· != standard)

/-- The schema definition, if one is needed. -/
def SchemaInfo.definitionSdl (s : SchemaInfo) : List Char :=
  if s.needsDefinition then
    "schema ".toList ++ ['{', '\n'] ++
      s.roots.flatMap (fun (word, _, name) =>
        match name with
        | none => []
        | some n => margin 1 ++ word.toList ++ [':', ' '] ++ n.toList ++ ['\n']) ++
      ['}', '\n', '\n']
  else []

/-- The text of a schema, without blanks at its end. -/
def SchemaInfo.sdl (s : SchemaInfo) : String :=
  let definitions :=
    (s.directives.filter DirectiveInfo.isPrinted).map DirectiveInfo.sdl ++
      (s.types.filter TypeInfo.isPrinted).map TypeInfo.sdl
  String.ofList (dropBlankEnd (s.definitionSdl ++ definitions.flatMap (· ++ ['\n', '\n'])))

end SchemaWeave.Introspection
