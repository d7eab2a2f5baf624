import SchemaWeave.Graphql.Document
import SchemaWeave.Graphql.Layout

/-!
# The text of a document

`Document.text` writes a document with two blanks of indentation, one member per line, an empty line between definitions
and a line end after the last one. Applied directives and their arguments stay on one line, and so do the arguments of
a field or directive definition unless one of them has a description or a directive of its own. A description, and a
string that holds a line end outside such one-line regions, is a block string wherever that keeps its value.
-/

namespace SchemaWeave.Graphql

/-- The blanks by which a nested line is indented further. -/
def indentStep : Nat := 2

def mark (p : Punctuator) : Piece := .token (.punct p)

def word (s : String) : Piece := .token (.name s)

namespace TypeExpr

def pieces : TypeExpr → List Piece
  | named name required => word name :: (if required then [mark .bang] else [])
  | list item required =>
    mark .openBracket :: item.pieces ++ mark .closeBracket :: (if required then [mark .bang] else [])

end TypeExpr

namespace Value

mutual

/-- A value. On one line items stand side by side; otherwise each has a line of its own and a comma after it. -/
def pieces (oneLine : Bool) (indent : Nat) : Value → List Piece
  | var name => [mark .dollar, word name]
  | int spelling => [.token (.int spelling)]
  | float spelling => [.token (.float spelling)]
  | string value =>
    if !oneLine && value.toList.contains '\n' && isBlockable value.toList then [.block indent value]
    else [.token (.string value)]
  | boolean value => [word (if value then "true" else "false")]
  | null => [word "null"]
  | enum name => [word name]
  | list items =>
    if items.isEmpty then [mark .openBracket, mark .closeBracket]
    else if oneLine then mark .openBracket :: sideBySide items ++ [mark .closeBracket]
    else mark .openBracket :: itemLines (indent + indentStep) items ++ [.line indent, mark .closeBracket]
  | object fields =>
    if fields.isEmpty then [mark .openBrace, mark .closeBrace]
    else if oneLine then mark .openBrace :: fieldsSideBySide fields ++ [mark .closeBrace]
    else mark .openBrace :: fieldLines (indent + indentStep) fields ++ [.line indent, mark .closeBrace]

def sideBySide : List Value → List Piece
  | [] => []
  | item :: items =>
    item.pieces true 0 ++ (if items.isEmpty then [] else [.comma, .space]) ++ sideBySide items

def itemLines (indent : Nat) : List Value → List Piece
  | [] => []
  | item :: items => .line indent :: item.pieces false indent ++ .comma :: itemLines indent items

def fieldsSideBySide : List (Name × Value) → List Piece
  | [] => []
  | (name, value) :: fields =>
    word name :: mark .colon :: .space :: value.pieces true 0 ++
      (if fields.isEmpty then [] else [.comma, .space]) ++ fieldsSideBySide fields

def fieldLines (indent : Nat) : List (Name × Value) → List Piece
  | [] => []
  | (name, value) :: fields =>
    .line indent :: word name :: mark .colon :: .space :: value.pieces false indent ++ .comma :: fieldLines indent fields

end

/-- The value on one line. -/
def text (v : Value) : String := Piece.text (v.pieces true 0)

end Value

/-- The arguments of an applied directive. -/
def argumentPieces (arguments : List (Name × Value)) : List Piece :=
  if arguments.isEmpty then []
  else mark .openParen :: Value.fieldsSideBySide arguments ++ [mark .closeParen]

def Directive.pieces (d : Directive) : List Piece :=
  .space :: mark .atSign :: word d.name :: argumentPieces d.arguments

def directivePieces (ds : List Directive) : List Piece := ds.flatMap Directive.pieces

/-- A description on lines of its own in front of what it describes. -/
def descriptionPieces (indent : Nat) : Option String → List Piece
  | none => []
  | some d => [if isBlockable d.toList then .block indent d else .token (.string d), .line indent]

/-- A default value and the mark in front of it. -/
def defaultPieces (oneLine : Bool) (indent : Nat) : Option Value → List Piece
  | none => []
  | some v => .space :: mark .equals :: .space :: v.pieces oneLine indent

def InputDef.pieces (oneLine : Bool) (indent : Nat) (d : InputDef) : List Piece :=
  descriptionPieces indent d.description ++ word d.name :: mark .colon :: .space :: d.type.pieces ++
    defaultPieces oneLine indent d.default ++ directivePieces d.directives

/-- Whether an argument needs a line of its own. -/
def InputDef.needsLine (d : InputDef) : Bool := d.description.isSome || !d.directives.isEmpty

/-- The arguments that a field or a directive takes. -/
def argumentDefPieces (indent : Nat) (arguments : List InputDef) : List Piece :=
  if arguments.isEmpty then []
  else if arguments.any InputDef.needsLine then
    mark .openParen ::
      arguments.flatMap (fun a =>
        .line (indent + indentStep) :: a.pieces false (indent + indentStep) ++ [Piece.comma]) ++
      [.line indent, mark .closeParen]
  else
    mark .openParen :: Piece.joined [.comma, .space] (arguments.map (·.pieces true indent)) ++ [mark .closeParen]

def FieldDef.pieces (indent : Nat) (f : FieldDef) : List Piece :=
  descriptionPieces indent f.description ++ word f.name :: argumentDefPieces indent f.arguments ++
    mark .colon :: .space :: f.type.pieces ++ directivePieces f.directives

def EnumValueDef.pieces (indent : Nat) (v : EnumValueDef) : List Piece :=
  descriptionPieces indent v.description ++ word v.name :: directivePieces v.directives

/-- Members in braces, each on a line of its own; nothing if there are none. -/
def memberPieces (members : List (List Piece)) : List Piece :=
  if members.isEmpty then []
  else .space :: mark .openBrace :: members.flatMap (.line indentStep :: ·) ++ [.line 0, mark .closeBrace]

/-- Names with a mark between them, after what introduces them; nothing if there are none. -/
def nameListPieces (introduction : List Piece) (separator : Punctuator) (names : List Name) : List Piece :=
  if names.isEmpty then []
  else introduction ++ Piece.joined [.space, mark separator, .space] (names.map fun n => [word n])

/-- What a type definition or extension says after its keyword. -/
def TypeBody.pieces (name : Name) (directives : List Directive) : TypeBody → List Piece
  | scalar => word name :: directivePieces directives
  | object interfaces fields | interface interfaces fields =>
    word name :: nameListPieces [.space, word "implements", .space] .amp interfaces ++ directivePieces directives ++
      memberPieces (fields.map (·.pieces indentStep))
  | union members =>
    word name :: directivePieces directives ++ nameListPieces [.space, mark .equals, .space] .pipe members
  | enum values =>
    word name :: directivePieces directives ++ memberPieces (values.map (·.pieces indentStep))
  | inputObject fields =>
    word name :: directivePieces directives ++ memberPieces (fields.map (·.pieces false indentStep))

def rootPieces (roots : List (OperationKind × Name)) : List (List Piece) :=
  roots.map fun (kind, type) => [word kind.name, mark .colon, .space, word type]

/-- The kinds of executable definitions are written by their keyword alone. -/
def Definition.pieces : Definition → List Piece
  | operation => [word "query"]
  | fragment => [word "fragment"]
  | schema d =>
    descriptionPieces 0 d.description ++ word "schema" :: directivePieces d.directives ++
      (if d.roots.isEmpty then [.space, mark .openBrace, mark .closeBrace] else memberPieces (rootPieces d.roots))
  | directive d =>
    descriptionPieces 0 d.description ++ word "directive" :: .space :: mark .atSign :: word d.name ::
      argumentDefPieces 0 d.arguments ++ (if d.repeatable then [.space, word "repeatable"] else []) ++
      nameListPieces [.space, word "on", .space] .pipe (d.locations.map DirectiveLocation.name)
  | type d =>
    descriptionPieces 0 d.description ++ word d.body.kind.keyword :: .space :: d.body.pieces d.name d.directives
  | schemaExtension e =>
    word "extend" :: .space :: word "schema" :: directivePieces e.directives ++ memberPieces (rootPieces e.roots)
  | typeExtension e =>
    word "extend" :: .space :: word e.body.kind.keyword :: .space :: e.body.pieces e.name e.directives

def Document.pieces (doc : Document) : List Piece :=
  if doc.isEmpty then []
  else Piece.joined [.line 0, .line 0] (doc.map Definition.pieces) ++ [.line 0]

/-- The text of a document. -/
def Document.text (doc : Document) : String := Piece.text (Document.pieces doc)

end SchemaWeave.Graphql
