/-!
# Faults in a JSON text

A fault is a problem and the place where the reader noticed it: the text that is left there, and how many bytes of it were
looked at. `Fault.position` turns that into a line and a column, both counted as the messages show them: lines from
one, columns in bytes since the last line end.
-/

namespace SchemaWeave.Json

/-- What can be wrong with a text that is no JSON. -/
inductive Problem
  | eofInValue | eofInList | eofInObject | eofInString
  | expectedIdentifier | expectedValue | expectedColon | expectedListEnd | expectedObjectEnd
  | keyNotString | trailingComma | trailingCharacters
  | invalidNumber | numberOutOfRange
  | invalidEscape | unfinishedPair | loneSurrogate | controlCharacter
  | recursionLimit
  /-- a value of the wrong type, or another fault of the data, with its wording -/
  | data (message : String)
  deriving DecidableEq

def Problem.message : Problem → String
  | eofInValue => "EOF while parsing a value"
  | eofInList => "EOF while parsing a list"
  | eofInObject => "EOF while parsing an object"
  | eofInString => "EOF while parsing a string"
  | expectedIdentifier => "expected ident"
  | expectedValue => "expected value"
  | expectedColon => "expected `:`"
  | expectedListEnd => "expected `,` or `]`"
  | expectedObjectEnd => "expected `,` or `\x7d`"
  | keyNotString => "key must be a string"
  | trailingComma => "trailing comma"
  | trailingCharacters => "trailing characters"
  | invalidNumber => "invalid number"
  | numberOutOfRange => "number out of range"
  | invalidEscape => "invalid escape"
  | unfinishedPair => "unexpected end of hex escape"
  | loneSurrogate => "lone leading surrogate in hex escape"
  | controlCharacter => "control character (\\u0000-\\u001F) found while parsing a string"
  | recursionLimit => "recursion limit exceeded"
  | data message => message

/-- A problem, the text left where it was noticed, and the number of bytes of that text which the reader had seen. -/
structure Fault where
  problem : Problem
  rest : List Char
  seen : Nat

/-- A line and a column. -/
structure Position where
  line : Nat
  column : Nat
  deriving DecidableEq

/-- The position behind some bytes: the number of lines up to there, and of bytes in the last of them. -/
def Position.behind (bytes : List UInt8) : Position :=
  { line := 1 + bytes.count 10, column := (bytes.reverse.takeWhile (· != 10)).length }

/-- The bytes of a text. -/
def utf8 (cs : List Char) : List UInt8 := (String.ofList cs).toUTF8.toList

/-- The position of a fault in the text that was read. -/
def Fault.position (text : List Char) (f : Fault) : Position :=
  let bytes := utf8 text
  Position.behind (bytes.take (bytes.length - (utf8 f.rest).length + f.seen))

/-- The message of a fault in the text that was read. -/
def Fault.message (text : List Char) (f : Fault) : String :=
  let p := f.position text
  s!"{f.problem.message} at line {p.line} column {p.column}"

/-- A problem noticed behind what was read. -/
def Problem.here (p : Problem) (rest : List Char) : Fault := ⟨p, rest, 0⟩

/-- A problem noticed by looking at the next byte. -/
def Problem.ahead (p : Problem) (rest : List Char) : Fault := ⟨p, rest, 1⟩

/-- A reader of the front of a text. -/
abbrev Reading (α : Type) := List Char → Except Fault (α × List Char)

end SchemaWeave.Json
