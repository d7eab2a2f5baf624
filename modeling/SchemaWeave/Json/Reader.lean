import SchemaWeave.Json.Numeral
import SchemaWeave.Text.Hex

/-!
# Reading JSON

`Json.parse` reads one value that fills a text. Nesting is limited to `nestingLimit` levels less one, and repetition is
bounded by the length of the text. Members stay in the order of the text, and a repeated name is no fault here.
-/

namespace SchemaWeave.Json

open Text

/-- A blank between the tokens of JSON. -/
def isSpace (c : Char) : Bool := c == ' ' || c == '\n' || c == '\t' || c == '\r'

def skipSpace (cs : List Char) : List Char := cs.dropWhile isSpace

/-- The character that a one-letter escape stands for. -/
def simpleEscape? : Char → Option Char
  | '"' => some '"'
  | '\\' => some '\\'
  | '/' => some '/'
  | 'b' => some '\x08'
  | 'f' => some '\x0c'
  | 'n' => some '\n'
  | 'r' => some '\r'
  | 't' => some '\t'
  | _ => none

/-- Four hexadecimal digits. Where fewer than four bytes are left the text counts as ended. -/
def readQuad : Reading Nat := fun cs =>
  match cs with
  | a :: b :: c :: d :: rest =>
    match hexQuad? a b c d with
    | some n => .ok (n, rest)
    | none => .error ⟨.invalidEscape, cs, 4⟩
  | _ => if (utf8 cs).length < 4 then .error (Problem.eofInString.here []) else .error ⟨.invalidEscape, cs, 4⟩

/-- Whether a number is the first half of a surrogate pair. -/
def isHighSurrogate (n : Nat) : Bool := 0xD800 ≤ n && n ≤ 0xDBFF

/-- Whether a number is the second half of a surrogate pair. -/
def isLowSurrogate (n : Nat) : Bool := 0xDC00 ≤ n && n ≤ 0xDFFF

/-- The character of an escape in hexadecimal digits, after the `u`; a pair of surrogates is one character. -/
def readUnit : Reading Char := fun cs =>
  match readQuad cs with
  | .error e => .error e
  | .ok (n, rest) =>
    if isLowSurrogate n then .error (Problem.loneSurrogate.here rest)
    else if !isHighSurrogate n then .ok (Char.ofNat n, rest)
    else match rest with
      | [] => .error (Problem.eofInString.here [])
      | '\\' :: [] => .error (Problem.eofInString.here [])
      | '\\' :: 'u' :: rest =>
        match readQuad rest with
        | .error e => .error e
        | .ok (m, rest) =>
          if isLowSurrogate m then .ok (Char.ofNat (0x10000 + (n - 0xD800) * 0x400 + (m - 0xDC00)), rest)
          else .error (Problem.loneSurrogate.here rest)
      | '\\' :: c :: rest => .error ⟨.unfinishedPair, c :: rest, 1⟩
      | c :: rest => .error ⟨.unfinishedPair, c :: rest, 1⟩

/-- An escape, after the backslash. -/
def readEscape : Reading Char
  | [] => .error (Problem.eofInString.here [])
  | 'u' :: cs => readUnit cs
  | c :: cs =>
    match simpleEscape? c with
    | some ch => .ok (ch, cs)
    | none => .error ⟨.invalidEscape, c :: cs, 1⟩

/-- The inside of a string and its closing quote; `bound` limits the number of characters. -/
def readStringChars : (bound : Nat) → Reading (List Char)
  | 0, cs => .error (Problem.eofInString.here cs)
  | _ + 1, [] => .error (Problem.eofInString.here [])
  | _ + 1, '"' :: cs => .ok ([], cs)
  | bound + 1, '\\' :: cs =>
    match readEscape cs with
    | .error e => .error e
    | .ok (ch, rest) =>
      match readStringChars bound rest with
      | .error e => .error e
      | .ok (chars, rest) => .ok (ch :: chars, rest)
  | bound + 1, c :: cs =>
    if c.val < 0x20 then .error ⟨.controlCharacter, c :: cs, 1⟩
    else match readStringChars bound cs with
      | .error e => .error e
      | .ok (chars, rest) => .ok (c :: chars, rest)

/-- A string after its opening quote. -/
def readString : Reading String := fun cs =>
  match readStringChars (cs.length + 1) cs with
  | .error e => .error e
  | .ok (chars, rest) => .ok (String.ofList chars, rest)

/-- The rest of a word whose first letter was read. -/
def readWord (value : Json) : (letters : List Char) → Reading Json
  | [], cs => .ok (value, cs)
  | _ :: _, [] => .error (Problem.eofInValue.here [])
  | l :: letters, c :: cs => if c = l then readWord value letters cs else .error ⟨.expectedIdentifier, c :: cs, 1⟩

/-- What comes after an item of a list: `true` for another item. -/
def readListSeparator : Reading Bool := fun cs =>
  match skipSpace cs with
  | [] => .error (Problem.eofInList.ahead [])
  | ']' :: cs => .ok (false, cs)
  | ',' :: cs =>
    match skipSpace cs with
    | [] => .error (Problem.eofInValue.ahead [])
    | ']' :: cs => .error (Problem.trailingComma.ahead (']' :: cs))
    | cs => .ok (true, cs)
  | cs => .error (Problem.expectedListEnd.ahead cs)

/-- What comes after a member of an object: `true` for another member, whose name has been opened. -/
def readObjectSeparator : Reading Bool := fun cs =>
  match skipSpace cs with
  | [] => .error (Problem.eofInObject.ahead [])
  | '}' :: cs => .ok (false, cs)
  | ',' :: cs =>
    match skipSpace cs with
    | [] => .error (Problem.eofInValue.ahead [])
    | '"' :: cs => .ok (true, cs)
    | '}' :: cs => .error (Problem.trailingComma.ahead ('}' :: cs))
    | cs => .error (Problem.keyNotString.ahead cs)
  | cs => .error (Problem.expectedObjectEnd.ahead cs)

/-- The start of an object: `true` if its first member's name has been opened. -/
def readObjectStart : Reading Bool := fun cs =>
  match skipSpace cs with
  | [] => .error (Problem.eofInObject.ahead [])
  | '}' :: cs => .ok (false, cs)
  | '"' :: cs => .ok (true, cs)
  | cs => .error (Problem.keyNotString.ahead cs)

/-- The colon after a name. -/
def readColon : Reading Unit := fun cs =>
  match skipSpace cs with
  | [] => .error (Problem.eofInObject.ahead [])
  | ':' :: cs => .ok ((), cs)
  | cs => .error (Problem.expectedColon.ahead cs)

/-- The items of a list up to its end, at most `bound` of them. -/
def readItems (item : Reading Json) : (bound : Nat) → Reading (List Json)
  | 0, cs => .error (Problem.eofInList.ahead cs)
  | bound + 1, cs => do
    let (first, cs) ← item cs
    let (more, cs) ← readListSeparator cs
    if more then
      let (items, cs) ← readItems item bound cs
      return (first :: items, cs)
    else return ([first], cs)

/-- The members of an object up to its end, at most `bound` of them; the first name has been opened. -/
def readMembers (value : Reading Json) : (bound : Nat) → Reading (List (String × Json))
  | 0, cs => .error (Problem.eofInObject.ahead cs)
  | bound + 1, cs => do
    let (key, cs) ← readString cs
    let ((), cs) ← readColon cs
    let (first, cs) ← value cs
    let (more, cs) ← readObjectSeparator cs
    if more then
      let (members, cs) ← readMembers value bound cs
      return ((key, first) :: members, cs)
    else return ([(key, first)], cs)

/-- A value, where `depth` levels are left; entering the last of them is a fault. -/
def readValue (bound : Nat) : (depth : Nat) → Reading Json
  | 0, cs => .error (Problem.recursionLimit.ahead cs)
  | depth + 1, cs =>
    match skipSpace cs with
    | [] => .error (Problem.eofInValue.ahead [])
    | 'n' :: cs => readWord null ['u', 'l', 'l'] cs
    | 't' :: cs => readWord (bool true) ['r', 'u', 'e'] cs
    | 'f' :: cs => readWord (bool false) ['a', 'l', 's', 'e'] cs
    | '"' :: cs => do
      let (s, cs) ← readString cs
      return (string s, cs)
    | '[' :: cs =>
      if depth = 0 then .error (Problem.recursionLimit.ahead ('[' :: cs))
      else match skipSpace cs with
        | [] => .error (Problem.eofInList.ahead [])
        | ']' :: cs => .ok (array [], cs)
        | cs => do
          let (items, cs) ← readItems (readValue bound depth) bound cs
          return (array items, cs)
    | '{' :: cs =>
      if depth = 0 then .error (Problem.recursionLimit.ahead ('{' :: cs))
      else do
        let (nonempty, cs) ← readObjectStart cs
        if nonempty then
          let (members, cs) ← readMembers (readValue bound depth) bound cs
          return (object members, cs)
        else return (object [], cs)
    | c :: cs =>
      if c = '-' ∨ c.isDigit then do
        let (n, cs) ← readNumeral (c :: cs)
        return (number n, cs)
      else .error (Problem.expectedValue.ahead (c :: cs))

/-- The number of levels at which a text counts as nested too deep. -/
def nestingLimit : Nat := 128

/-- The value at the front of a text. -/
def read (text : List Char) : Except Fault (Json × List Char) :=
  readValue (text.length + 1) nestingLimit text

/-- Whether anything but blanks is left behind a value. -/
def checkEnd (rest : List Char) : Except Fault Unit :=
  match skipSpace rest with
  | [] => .ok ()
  | cs => .error (Problem.trailingCharacters.ahead cs)

/-- The value that fills a text. -/
def parseChars (text : List Char) : Except Fault Json := do
  let (j, rest) ← read text
  checkEnd rest
  return j

/-- The value that fills a text, or the message of the fault. -/
def parse (text : String) : Except String Json :=
  match parseChars text.toList with
  | .ok j => .ok j
  | .error e => .error (e.message text.toList)

end SchemaWeave.Json
