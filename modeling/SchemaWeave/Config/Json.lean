import SchemaWeave.Config.Basic
import SchemaWeave.Json.Decode
import SchemaWeave.Json.Reader

/-!
# Settings in JSON

Settings are an object with their names, or an array with their values in order, some of which may be left out at its end. A
value that is null leaves its setting unset. The text is read in one pass, so of several faults the first in the text is
reported, at the place where the reader stands: behind a scalar of the wrong type, before a list or an object, behind a
name that is unknown or comes again.
-/

namespace SchemaWeave.Config

open Json

/-- The kind of record that messages name. -/
def recordName : String := "struct CodegenConfig"

/-- A value of the wrong type. A scalar is read first, so a fault in it shows instead. -/
def readUnexpected {α : Type} (expected : String) : Reading α := fun cs =>
  let fail (found : String) (rest : List Char) : Except Fault (α × List Char) :=
    .error ((Problem.data s!"invalid type: {found}, expected {expected}").here rest)
  match cs with
  | '[' :: _ => fail "sequence" cs
  | '{' :: _ => fail "map" cs
  | cs => do
    let (found, rest) ← readValue 0 2 cs
    fail found.describe rest

/-- A value that may be null. -/
def readNullable {α : Type} (value : Reading α) : Reading (Option α) := fun cs =>
  match skipSpace cs with
  | 'n' :: cs => do
    let (_, cs) ← readWord .null ['u', 'l', 'l'] cs
    return (none, cs)
  | cs => do
    let (x, cs) ← value cs
    return (some x, cs)

/-- A text; `expected` is what a message calls it. -/
def readText (expected : String) : Reading String := fun cs =>
  match cs with
  | '"' :: cs => readString cs
  | [] => .error (Problem.eofInValue.ahead [])
  | cs => readUnexpected expected cs

/-- A truth value. -/
def readBool : Reading Bool := fun cs =>
  match cs with
  | 't' :: cs => do
    let (_, cs) ← readWord (.bool true) ['r', 'u', 'e'] cs
    return (true, cs)
  | 'f' :: cs => do
    let (_, cs) ← readWord (.bool false) ['a', 'l', 's', 'e'] cs
    return (false, cs)
  | [] => .error (Problem.eofInValue.ahead [])
  | cs => readUnexpected "a boolean" cs

/-- The value of a setting, put into settings. -/
def readField (field : Field) (c : Config) : Reading Config := fun cs =>
  match field with
  | .remote => do
    let (x, cs) ← readNullable (readText "a string") cs
    return ({ c with remote := x }, cs)
  | .client => do
    let (x, cs) ← readNullable (readText "a string") cs
    return ({ c with client := x }, cs)
  | .output => do
    let (x, cs) ← readNullable (readText "path string") cs
    return ({ c with output := x }, cs)
  | .insecure => do
    let (x, cs) ← readNullable readBool cs
    return ({ c with insecure := x }, cs)

/-- A fault of a name. The reader looks for the end of the object before it reports the fault. -/
def nameFault (message : String) (rest : List Char) : Fault :=
  match skipSpace rest with
  | '}' :: rest => (Problem.data message).here rest
  | rest => (Problem.data message).here rest

/-- The setting with a name that has not come before. -/
def newField (seen : List Field) (name : String) (rest : List Char) : Except Fault Field :=
  match Field.ofName? name with
  | none => .error (nameFault s!"unknown field `{name}`, {oneOf (Field.all.map Field.name)}" rest)
  | some field =>
    if seen.contains field then .error (nameFault s!"duplicate field `{name}`" rest) else .ok field

/-- The members of an object up to its end, at most `bound` of them; the first name has been opened. -/
def readFields : (bound : Nat) → (seen : List Field) → Config → Reading Config
  | 0, _, _, cs => .error (Problem.eofInObject.ahead cs)
  | bound + 1, seen, c, cs => do
    let (name, cs) ← readString cs
    let field ← newField seen name cs
    let ((), cs) ← readColon cs
    let (c, cs) ← readField field c cs
    let (more, cs) ← readObjectSeparator cs
    if more then readFields bound (field :: seen) c cs else return (c, cs)

/-- What comes after the last value that an array may have. -/
def readSurplus : Reading Unit := fun cs =>
  match skipSpace cs with
  | [] => .error (Problem.eofInList.ahead [])
  | ']' :: cs => .ok ((), cs)
  | ',' :: cs =>
    match skipSpace cs with
    | ']' :: cs => .error (Problem.trailingComma.ahead (']' :: cs))
    | cs => .error (Problem.trailingCharacters.ahead cs)
  | cs => .error (Problem.trailingCharacters.ahead cs)

/-- The values of an array for some settings, the first value being there. -/
def readValues : List Field → Config → Reading Config
  | [], c, cs => .ok (c, cs)
  | [field], c, cs => do
    let (c, cs) ← readField field c cs
    let ((), cs) ← readSurplus cs
    return (c, cs)
  | field :: fields, c, cs => do
    let (c, cs) ← readField field c cs
    let (more, cs) ← readListSeparator cs
    if more then readValues fields c cs else return (c, cs)

/-- Settings at the front of a text. -/
def readJson : Reading Config := fun cs =>
  match skipSpace cs with
  | [] => .error (Problem.eofInValue.ahead [])
  | '[' :: cs =>
    match skipSpace cs with
    | [] => .error (Problem.eofInList.ahead [])
    | ']' :: cs => .ok ({}, cs)
    | cs => readValues Field.all {} cs
  | '{' :: cs => do
    let (nonempty, cs) ← readObjectStart cs
    if nonempty then readFields (cs.length + 1) [] {} cs else return ({}, cs)
  | cs => readUnexpected recordName cs

/-- The settings that fill a text. -/
def ofJsonChars (text : List Char) : Except Fault Config := do
  let (c, rest) ← readJson text
  checkEnd rest
  return c

/-- The settings that fill a text in JSON, or the message of the fault. -/
def ofJson (text : String) : Except String Config :=
  match ofJsonChars text.toList with
  | .ok c => .ok c
  | .error e => .error (e.message text.toList)

end SchemaWeave.Config
