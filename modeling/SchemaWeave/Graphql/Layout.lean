import SchemaWeave.Graphql.Token
import SchemaWeave.Graphql.Quoted
import SchemaWeave.Graphql.Block

/-!
# Layout of tokens

A text of the schema language is laid out as pieces: tokens, and the blanks, commas and line ends between them. The
pieces say at once which characters are written (`Piece.chars`) and which tokens the text holds (`Piece.token?`).
-/

namespace SchemaWeave.Graphql

/-- A piece of a laid out text. -/
inductive Piece
  /-- a token; a string is quoted -/
  | token (t : Token)
  /-- a string written as a block string, its lines indented -/
  | block (indent : Nat) (value : String)
  | space
  | comma
  /-- the end of a line, and the indentation of the next -/
  | line (indent : Nat)

/-- The written form of a token. -/
def Token.chars : Token → List Char
  | punct p => p.chars
  | name text => text.toList
  | int spelling => spelling.toList
  | float spelling => spelling.toList
  | string value => quote value.toList

/-- The characters of a piece. -/
def Piece.chars : Piece → List Char
  | token t => t.chars
  | block indent value => Graphql.block indent value.toList
  | space => [' ']
  | comma => [',']
  | line indent => '\n' :: List.replicate indent ' '

/-- The token that a piece holds. -/
def Piece.token? : Piece → Option Token
  | token t => some t
  | block _ value => some (.string value)
  | space | comma | line _ => none

/-- The characters of a laid out text. -/
def Piece.text (pieces : List Piece) : String :=
  String.ofList (pieces.flatMap Piece.chars)

/-- Groups of pieces with a separator between them. -/
def Piece.joined (separator : List Piece) : List (List Piece) → List Piece
  | [] => []
  | [group] => group
  | group :: groups => group ++ separator ++ joined separator groups

end SchemaWeave.Graphql
