import SchemaWeave.Yaml.Character

/-!
# Places in a YAML text

A cursor is what is left of a text, with the column of its start and whether an entry of a block mapping may start there.
`skip` goes on to the next token, over blanks, comments and line ends.
-/

namespace SchemaWeave.Yaml

/-- A place in a text. -/
structure Cursor where
  rest : List Char
  /-- the number of characters since the line's start -/
  column : Nat
  /-- whether an entry may start here: nothing but blanks came before on the line -/
  fresh : Bool

/-- Goes on to the next token; `flow` says whether this is inside braces, `comment` whether it is inside a comment. A tab is
no blank where an entry may start. -/
def skipFrom (flow : Bool) : (comment : Bool) → (column : Nat) → (fresh : Bool) → List Char → Cursor
  | _, column, fresh, [] => ⟨[], column, fresh⟩
  | _, _, fresh, '\r' :: '\n' :: cs => skipFrom flow false 0 (fresh || !flow) cs
  | comment, column, fresh, c :: cs =>
    if isBreak c then skipFrom flow false 0 (fresh || !flow) cs
    else if comment || c == '#' then skipFrom flow true (column + 1) fresh cs
    else if c == ' ' || (c == '\t' && (flow || !fresh)) || (c == byteOrderMark && column == 0) then
      skipFrom flow false (column + 1) fresh cs
    else ⟨c :: cs, column, fresh⟩

namespace Cursor

/-- Goes on to the next token. -/
def skip (flow : Bool) (c : Cursor) : Cursor := skipFrom flow false c.column c.fresh c.rest

/-- The place behind the next character of the line, where no entry may start. -/
def next (c : Cursor) (rest : List Char) : Cursor := ⟨rest, c.column + 1, false⟩

/-- The place behind some characters of the line, where no entry may start. -/
def after (c : Cursor) (rest : List Char) : Cursor := ⟨rest, c.column + (c.rest.length - rest.length), false⟩

/-- Whether a document's start or end is marked here. -/
def isAtMarker (c : Cursor) : Bool := isMarker c.column c.rest

end Cursor

/-- The most characters that a key without a mark of its own may have. -/
def longestKey : Nat := 1024

/-- Whether what lies between two places, given by what is left of the text at each, may be a key without a mark of its own:
it is short and on one line. -/
def isKeyBetween (start stop : List Char) : Bool :=
  let key := start.take (start.length - stop.length)
  key.length ≤ longestKey && !key.any isBreak

end SchemaWeave.Yaml
