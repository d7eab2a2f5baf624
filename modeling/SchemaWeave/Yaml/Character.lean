/-!
# Characters of a YAML text

Which characters a text may hold, which of them end a line, and where a word ends.
-/

namespace SchemaWeave.Yaml

/-- A character that a text may hold: no control character but the tab and the line ends, and no noncharacter. -/
def isContent (c : Char) : Bool :=
  c == '\t' || c == '\n' || c == '\r' || (0x20 ≤ c.val && c.val ≤ 0x7E) || c.val == 0x85 ||
  (0xA0 ≤ c.val && c.val ≤ 0xFFFD) || 0x10000 ≤ c.val

/-- A blank within a line. -/
def isBlank (c : Char) : Bool := c == ' ' || c == '\t'

/-- A character that ends a line; a carriage return and a line feed together end one line. -/
def isBreak (c : Char) : Bool :=
  c == '\n' || c == '\r' || c.val == 0x85 || c.val == 0x2028 || c.val == 0x2029

/-- A line end as it is kept in a scalar: all are line feeds but the separators of lines and paragraphs. -/
def breakChar (c : Char) : Char := if c.val == 0x2028 || c.val == 0x2029 then c else '\n'

/-- Takes the line end off the front of a text. -/
def takeBreak? : List Char → Option (Char × List Char)
  | '\r' :: '\n' :: cs => some ('\n', cs)
  | c :: cs => if isBreak c then some (breakChar c, cs) else none
  | [] => none

/-- The mark that may stand at the start of a text. -/
def byteOrderMark : Char := '\ufeff'

/-- A character of an anchor's name, of a directive's name or of a tag handle. -/
def isWordChar (c : Char) : Bool := c.isAlphanum || c == '_' || c == '-'

/-- Whether a text is at the end of a word: at a blank, at a line end, or at its own end. -/
def endsWord : List Char → Bool
  | [] => true
  | c :: _ => isBlank c || isBreak c

/-- Whether a text starts with three times a character and then a word ends, which marks a document's start or end. -/
def startsMarker (mark : Char) : List Char → Bool
  | a :: b :: c :: cs => a == mark && b == mark && c == mark && endsWord cs
  | _ => false

/-- Whether a document's start or end is marked at a place. -/
def isMarker (column : Nat) (cs : List Char) : Bool :=
  column == 0 && (startsMarker '-' cs || startsMarker '.' cs)

/-- A character that has a meaning of its own at the start of a node. -/
def isIndicator (c : Char) : Bool :=
  ['-', '?', ':', ',', '[', ']', '{', '}', '#', '&', '*', '!', '|', '>', '\x27', '"', '%', '@', '\x60'].contains c

end SchemaWeave.Yaml
