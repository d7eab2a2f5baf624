/-!
# Tokens of the schema language

A token is a punctuator, a name, a number with its spelling, or a string with its value. The two written forms of a
string, quoted and block, give the same token, so what is said of tokens does not depend on how a text spells them.
-/

namespace SchemaWeave.Graphql

/-- The punctuators. The comma is not among them: it stands between tokens as blanks do. -/
inductive Punctuator
  | bang | dollar | amp | openParen | closeParen | spread | colon | equals | atSign
  | openBracket | closeBracket | openBrace | pipe | closeBrace
  deriving DecidableEq, Repr

/-- The written form of a punctuator. -/
def Punctuator.chars : Punctuator → List Char
  | bang => ['!']
  | dollar => ['$']
  | amp => ['&']
  | openParen => ['(']
  | closeParen => [')']
  | spread => ['.', '.', '.']
  | colon => [':']
  | equals => ['=']
  | atSign => ['@']
  | openBracket => ['[']
  | closeBracket => [']']
  | openBrace => ['{']
  | pipe => ['|']
  | closeBrace => ['}']

/-- The punctuator that a single character writes. -/
def Punctuator.ofChar? : Char → Option Punctuator
  | '!' => some bang
  | '$' => some dollar
  | '&' => some amp
  | '(' => some openParen
  | ')' => some closeParen
  | ':' => some colon
  | '=' => some equals
  | '@' => some atSign
  | '[' => some openBracket
  | ']' => some closeBracket
  | '{' => some openBrace
  | '|' => some pipe
  | '}' => some closeBrace
  | _ => none

/-- A token. Numbers keep their spelling. -/
inductive Token
  | punct (p : Punctuator)
  | name (text : String)
  | int (spelling : String)
  | float (spelling : String)
  | string (value : String)
  deriving DecidableEq, Repr

/-- A character that may start a name. -/
def isNameStart (c : Char) : Bool :=
  c.isAlpha || c == '_'

/-- A character that may continue a name. -/
def isNameContinue (c : Char) : Bool :=
  c.isAlphanum || c == '_'

/-- A name: a letter or underscore, then letters, digits and underscores, all of them ASCII. -/
def isName (s : String) : Bool :=
  match s.toList with
  | [] => false
  | c :: cs => isNameStart c && cs.all isNameContinue

end SchemaWeave.Graphql
