import SchemaWeave.Graphql.Document
import SchemaWeave.Graphql.Lexer

/-!
# From tokens to a document

One function per rule of the grammar, each taking tokens from the front of a list. Repetition is bounded by the number
of tokens and nesting by `nestingLimit`, so every function is total.

A comma may stand between any two tokens but a few that belong together (`adjacent`). Two slips leave the rest of a
document readable: a schema definition with empty braces, and a schema extension without content. `Document.read` lists
them beside the document; `Document.parse` accepts a text only if there are none.
-/

namespace SchemaWeave.Graphql

/-- Why a text is no document. -/
inductive SyntaxError
  /-- something in the text is no token -/
  | notToken
  /-- a token, or the end of the text, where the grammar allows something else -/
  | unexpected (found : Option Token)
  /-- types, values or selections nested deeper than `nestingLimit` -/
  | tooDeep
  /-- a text without any definition -/
  | noDefinition
  /-- a schema definition whose braces hold nothing -/
  | emptySchema
  /-- a schema extension that adds nothing -/
  | emptyExtension
  deriving DecidableEq

/-- A token as it is named in a message. -/
def Token.describe : Token → String
  | punct p => String.ofList p.chars
  | name s | int s | float s => s
  | string _ => "a string"

def SyntaxError.message : SyntaxError → String
  | notToken => "syntax error: unexpected character"
  | unexpected none => "syntax error: unexpected end of document"
  | unexpected (some t) => s!"syntax error: unexpected {t.describe}"
  | tooDeep => "syntax error: nesting limit reached"
  | noDefinition => "syntax error: expected a definition"
  | emptySchema => "syntax error: a schema definition needs a root operation type"
  | emptyExtension => "syntax error: a schema extension needs directives or root operation types"

/-- The deepest nesting of types, values and selections that is read. -/
def nestingLimit : Nat := 500

/-- A reader of tokens: what it reads, and the tokens that are left. -/
abbrev Parser := StateT (List PlacedToken) (Except SyntaxError)

namespace Parser

variable {α : Type}

/-- The next token, left in place. -/
def peek : Parser (Option Token) := fun ts => .ok (ts.head?.map (·.token), ts)

/-- The next token, taken. -/
def next : Parser Token
  | [] => .error (.unexpected none)
  | t :: ts => .ok (t.token, ts)

/-- Refuses the next token. -/
def refuse : Parser α := fun ts => .error (.unexpected (ts.head?.map (·.token)))

/-- Refuses a comma before the next token. -/
def adjacent : Parser Unit := fun ts => if ts.head?.any (·.afterComma) then refuse ts else .ok ((), ts)

/-- Takes the next token if it is `t`, and says whether it was. -/
def take (t : Token) : Parser Bool
  | [] => .ok (false, [])
  | t' :: ts => .ok (if t'.token = t then (true, ts) else (false, t' :: ts))

/-- Takes a punctuator that has to come. -/
def expect (p : Punctuator) : Parser Unit := do
  if !(← take (.punct p)) then refuse

/-- Takes a name. -/
def name : Parser Name := do
  match ← peek with
  | some (.name s) => do let _ ← next; return s
  | _ => refuse

/-- Takes a keyword that has to come. -/
def keyword (s : String) : Parser Unit := do
  if !(← take (.name s)) then refuse

/-- Items up to a closing mark, at most `bound` of them. -/
def itemsUntil (close : Punctuator) (item : Parser α) : (bound : Nat) → Parser (List α)
  | 0 => refuse
  | bound + 1 => do
    if ← take (.punct close) then return []
    let first ← item
    let rest ← itemsUntil close item bound
    return first :: rest

/-- At least one item between two marks. -/
def itemsBetween (opening close : Punctuator) (item : Parser α) (bound : Nat) : Parser (List α) := do
  expect opening
  let first ← item
  let rest ← itemsUntil close item bound
  return first :: rest

/-- At least one item between two marks, or nothing if the opening mark does not come. -/
def optionalItems (opening close : Punctuator) (item : Parser α) (bound : Nat) : Parser (List α) := do
  match ← peek with
  | some (.punct p) => if p = opening then itemsBetween opening close item bound else return []
  | _ => return []

/-- Items for as long as the next token is a given mark, at most `bound` of them. -/
def itemsWhile (mark : Punctuator) (item : Parser α) : (bound : Nat) → Parser (List α)
  | 0 => return []
  | bound + 1 => do
    match ← peek with
    | some (.punct p) =>
      if p = mark then do
        let first ← item
        let rest ← itemsWhile mark item bound
        return first :: rest
      else return []
    | _ => return []

/-- At least one item with a mark between each two, and possibly one in front of the first. -/
def separated (mark : Punctuator) (item : Parser α) (bound : Nat) : Parser (List α) := do
  let _ ← take (.punct mark)
  let first ← item
  let rest ← itemsWhile mark (do expect mark; item) bound
  return first :: rest

/-- A type, with at most `depth - 1` lists around its name. -/
def typeExpr : (depth : Nat) → Parser TypeExpr
  | 0 => throw .tooDeep
  | depth + 1 => do
    if ← take (.punct .openBracket) then
      let item ← typeExpr depth
      expect .closeBracket
      return .list item (← take (.punct .bang))
    else
      let n ← name
      return .named n (← take (.punct .bang))

/-- A type of any admitted depth. -/
def type : Parser TypeExpr := typeExpr (nestingLimit + 1)

/-- The value that a name stands for. -/
def nameValue (s : Name) : Value :=
  if s = "true" then .boolean true
  else if s = "false" then .boolean false
  else if s = "null" then .null
  else .enum s

/-- A name with its value: an argument, or a field of an object value. One without a value is passed over. -/
def namedValue (value : Parser Value) : Parser (Option (Name × Value)) := do
  let n ← name
  if ← take (.punct .colon) then return some (n, ← value) else return none

/-- A value, with at most `depth - 1` lists and objects around each part; a constant holds no variables. -/
def valueUpTo (constant : Bool) (bound : Nat) : (depth : Nat) → Parser Value
  | 0 => throw .tooDeep
  | depth + 1 => do
    match ← peek with
    | some (.int s) => do let _ ← next; return .int s
    | some (.float s) => do let _ ← next; return .float s
    | some (.string s) => do let _ ← next; return .string s
    | some (.name s) => do let _ ← next; return nameValue s
    | some (.punct .dollar) =>
      if constant then refuse
      else do let _ ← next; return .var (← name)
    | some (.punct .openBracket) => do
      let _ ← next
      return .list (← itemsUntil .closeBracket (valueUpTo constant bound depth) bound)
    | some (.punct .openBrace) => do
      let _ ← next
      let fields ← itemsUntil .closeBrace (namedValue (valueUpTo constant bound depth)) bound
      return .object (fields.filterMap id)
    | _ => refuse

/-- A value of any admitted depth. -/
def value (constant : Bool) (bound : Nat) : Parser Value := valueUpTo constant bound (nestingLimit + 1)

/-- Arguments in parentheses, if they come. -/
def arguments (constant : Bool) (bound : Nat) : Parser (List (Name × Value)) := do
  return (← optionalItems .openParen .closeParen (namedValue (value constant bound)) bound).filterMap id

def directive (constant : Bool) (bound : Nat) : Parser Directive := do
  expect .atSign
  let n ← name
  return { name := n, arguments := ← arguments constant bound }

def directives (constant : Bool) (bound : Nat) : Parser (List Directive) :=
  itemsWhile .atSign (directive constant bound) bound

/-- A description, if one comes. -/
def description : Parser (Option String) := do
  match ← peek with
  | some (.string s) => do let _ ← next; return some s
  | _ => return none

def defaultValue (bound : Nat) : Parser (Option Value) := do
  if ← take (.punct .equals) then return some (← value true bound) else return none

def inputDef (bound : Nat) : Parser InputDef := do
  let d ← description
  let n ← name
  expect .colon
  let t ← type
  let v ← defaultValue bound
  return { description := d, name := n, type := t, default := v, directives := ← directives true bound }

def argumentDefs (bound : Nat) : Parser (List InputDef) :=
  optionalItems .openParen .closeParen (inputDef bound) bound

def fieldDef (bound : Nat) : Parser FieldDef := do
  let d ← description
  let n ← name
  let arguments ← argumentDefs bound
  expect .colon
  let t ← type
  return { description := d, name := n, arguments, type := t, directives := ← directives true bound }

/-- An enum value: any name but the three that stand for other values. -/
def enumValueDef (bound : Nat) : Parser EnumValueDef := do
  let d ← description
  match ← peek with
  | some (.name "true") | some (.name "false") | some (.name "null") => refuse
  | _ => do
    let n ← name
    return { description := d, name := n, directives := ← directives true bound }

/-- The interfaces that a type implements. -/
def interfaces (bound : Nat) : Parser (List Name) := do
  if ← take (.name "implements") then separated .amp name bound else return []

/-- The members of a union. -/
def members (bound : Nat) : Parser (List Name) := do
  if ← take (.punct .equals) then separated .pipe name bound else return []

def fieldDefs (bound : Nat) : Parser (List FieldDef) :=
  optionalItems .openBrace .closeBrace (fieldDef bound) bound

/-- What follows the name of a type of the given kind. -/
def typeContent (bound : Nat) : TypeKind → Parser (List Directive × TypeBody)
  | .scalar => do return (← directives true bound, .scalar)
  | .object => do
    let implemented ← interfaces bound
    let ds ← directives true bound
    return (ds, .object implemented (← fieldDefs bound))
  | .interface => do
    let implemented ← interfaces bound
    let ds ← directives true bound
    return (ds, .interface implemented (← fieldDefs bound))
  | .union => do
    let ds ← directives true bound
    return (ds, .union (← members bound))
  | .enum => do
    let ds ← directives true bound
    return (ds, .enum (← optionalItems .openBrace .closeBrace (enumValueDef bound) bound))
  | .inputObject => do
    let ds ← directives true bound
    return (ds, .inputObject (← optionalItems .openBrace .closeBrace (inputDef bound) bound))

/-- A root operation type. One whose type is missing is passed over. -/
def rootType : Parser (Option (OperationKind × Name)) := do
  match OperationKind.ofName? (← name) with
  | none => refuse
  | some kind =>
    expect .colon
    match ← peek with
    | some (.name type) => do let _ ← next; return some (kind, type)
    | _ => return none

/-- The entries for root operation types in braces, if there are braces. -/
def rootTypes (bound : Nat) : Parser (Option (List (Option (OperationKind × Name)))) := do
  if ← take (.punct .openBrace) then return some (← itemsUntil .closeBrace rootType bound) else return none

def location : Parser DirectiveLocation := do
  match DirectiveLocation.ofName? (← name) with
  | some l => return l
  | none => refuse

/-- A definition of a directive, after its keyword. -/
def directiveDef (bound : Nat) (description : Option String) : Parser DirectiveDef := do
  expect .atSign
  let n ← name
  let arguments ← argumentDefs bound
  let repeatable ← take (.name "repeatable")
  keyword "on"
  return { description, name := n, arguments, repeatable, locations := ← separated .pipe location bound }

/-- The content of a type extension adds something. -/
def TypeBody.isEmpty : TypeBody → Bool
  | .scalar => true
  | .object implemented fields | .interface implemented fields => implemented.isEmpty && fields.isEmpty
  | .union ms => ms.isEmpty
  | .enum vs => vs.isEmpty
  | .inputObject fields => fields.isEmpty

/-- The kind of type whose definitions start with this word. -/
def typeKind? (s : Name) : Option TypeKind := TypeKind.all.find? (·.keyword == s)

/-- An extension, after its keyword. -/
def extension (bound : Nat) : Parser (Definition × List SyntaxError) := do
  adjacent
  let word ← name
  if word = "schema" then
    let ds ← directives true bound
    let entries := (← rootTypes bound).getD []
    let faults := if ds.isEmpty && entries.isEmpty then [SyntaxError.emptyExtension] else []
    return (.schemaExtension { directives := ds, roots := entries.filterMap id }, faults)
  else match typeKind? word with
    | none => refuse
    | some kind =>
      let n ← name
      let (ds, body) ← typeContent bound kind
      if ds.isEmpty && TypeBody.isEmpty body then refuse
      return (.typeExtension { name := n, directives := ds, body }, [])

/-- A field, a fragment spread or an inline fragment. -/
def selection (bound : Nat) (selections : Parser Unit) : Parser Unit := do
  if ← take (.punct .spread) then
    adjacent
    match ← peek with
    | some (.name "on") => do
      let _ ← next
      let _ ← name
      let _ ← directives false bound
      selections
    | some (.name _) => do
      let _ ← next
      let _ ← directives false bound
    | _ => do
      let _ ← directives false bound
      selections
  else
    let _ ← name
    if (← peek) = some (.punct .colon) then
      adjacent
      let _ ← next
      let _ ← name
    let _ ← arguments false bound
    let _ ← directives false bound
    match ← peek with
    | some (.punct .openBrace) => selections
    | _ => return

/-- A selection set, with at most `depth` levels. Of its content nothing is kept. -/
def selections (bound : Nat) : (depth : Nat) → Parser Unit
  | 0 => throw .tooDeep
  | depth + 1 => do
    let _ ← itemsBetween .openBrace .closeBrace (selection bound (selections bound depth)) bound

def variableDef (bound : Nat) : Parser Unit := do
  expect .dollar
  let _ ← name
  expect .colon
  let _ ← type
  let _ ← defaultValue bound
  let _ ← directives true bound

/-- What follows the keyword of an operation. -/
def operation (bound : Nat) : Parser Unit := do
  match ← peek with
  | some (.name _) => do let _ ← next
  | _ => pure ()
  let _ ← optionalItems .openParen .closeParen (variableDef bound) bound
  let _ ← directives false bound
  selections bound nestingLimit

/-- What follows the name of a fragment. -/
def fragmentContent (bound : Nat) : Parser Unit := do
  keyword "on"
  let _ ← name
  let _ ← directives false bound
  selections bound nestingLimit

/-- What follows the keyword of a fragment. -/
def fragment (bound : Nat) : Parser Unit := do
  if (← name) = "on" then refuse
  fragmentContent bound

/-- A definition that may have a description, by its first word. -/
def typeSystemDefinition (bound : Nat) (description : Option String) (word : Name) :
    Parser (Definition × List SyntaxError) := do
  if word = "schema" then
    let ds ← directives true bound
    let entries ← rootTypes bound
    let faults := if entries.any List.isEmpty then [SyntaxError.emptySchema] else []
    return (.schema { description, directives := ds, roots := (entries.getD []).filterMap id }, faults)
  else if word = "directive" then
    return (.directive (← directiveDef bound description), [])
  else match typeKind? word with
    | none => refuse
    | some kind =>
      let n ← name
      let (ds, body) ← typeContent bound kind
      return (.type { description, name := n, directives := ds, body }, [])

/-- A definition behind its description. A fragment with a description has no name but its keyword. -/
def describedDefinition (bound : Nat) (description : String) : Parser (Definition × List SyntaxError) := do
  adjacent
  let word ← name
  if word = "fragment" then
    fragmentContent bound
    return (.fragment, [])
  else typeSystemDefinition bound (some description) word

/-- A definition, and the slips in it. -/
def definition (bound : Nat) : Parser (Definition × List SyntaxError) := do
  match ← description with
  | some d => describedDefinition bound d
  | none =>
    match ← peek with
    | some (.punct .openBrace) => do
      selections bound nestingLimit
      return (.operation, [])
    | _ =>
      let word ← name
      if (OperationKind.ofName? word).isSome then do
        operation bound
        return (.operation, [])
      else if word = "fragment" then do
        fragment bound
        return (.fragment, [])
      else if word = "extend" then extension bound
      else typeSystemDefinition bound none word

/-- Definitions up to the end of the tokens. -/
def definitions (tokens : Nat) : (bound : Nat) → Parser (List (Definition × List SyntaxError))
  | 0 => refuse
  | bound + 1 => do
    match ← peek with
    | none => return []
    | some _ =>
      let first ← definition tokens
      let rest ← definitions tokens bound
      return first :: rest

end Parser

/-- Reads the tokens of a document, and lists the slips that leave the rest readable. -/
def Document.ofTokens (tokens : List PlacedToken) : Except SyntaxError (Document × List SyntaxError) := do
  if tokens.isEmpty then return ([], [.noDefinition])
  let (definitions, _) ← Parser.definitions tokens.length (tokens.length + 1) tokens
  return (definitions.map (·.1), definitions.flatMap (·.2))

/-- Reads a document, and lists the slips that leave the rest readable. -/
def Document.read (text : String) : Except SyntaxError (Document × List SyntaxError) :=
  match tokenize text.toList with
  | none => .error .notToken
  | some tokens => Document.ofTokens tokens

/-- Reads a document without slips. -/
def Document.parse (text : String) : Except SyntaxError Document :=
  match Document.read text with
  | .error e => .error e
  | .ok (doc, []) => .ok doc
  | .ok (_, fault :: _) => .error fault

end SchemaWeave.Graphql
