/-!
# Block strings

A block string is delimited by three quotes and holds its text over several lines. Its value is what is left after the
common indentation of its lines and the blank lines at its ends are taken away (`blockValue`). `readBlock` finds the
closing quotes, reading an escaped triple quote as a triple quote; `block?` writes a value as a block string whenever
that reads back as the same value.
-/

namespace SchemaWeave.Graphql

/-- A blank of a block string's line. -/
def isLineBlank (c : Char) : Bool := c == ' ' || c == '\t'

/-- The lines of a text: a line feed, a carriage return, or the two together end a line. -/
def splitLines : List Char → List (List Char)
  | [] => [[]]
  | '\r' :: '\n' :: cs => [] :: splitLines cs
  | c :: cs =>
    if c = '\n' ∨ c = '\r' then [] :: splitLines cs
    else match splitLines cs with
      | [] => [[c]]
      | line :: lines => (c :: line) :: lines

/-- Lines put together with line feeds between them. -/
def joinLines : List (List Char) → List Char
  | [] => []
  | [line] => line
  | line :: lines => line ++ '\n' :: joinLines lines

/-- The number of blanks in front of a line. -/
def lineIndent (line : List Char) : Nat := (line.takeWhile isLineBlank).length

/-- A line without any character but blanks. -/
def isBlankLine (line : List Char) : Bool := line.all isLineBlank

/-- The smallest indentation of the lines that are not blank. -/
def commonIndent (lines : List (List Char)) : Option Nat :=
  ((lines.filter (!isBlankLine ·)).map lineIndent).min?

/-- The lines without the blank ones at both ends. -/
def trimBlankLines (lines : List (List Char)) : List (List Char) :=
  ((lines.dropWhile isBlankLine).reverse.dropWhile isBlankLine).reverse

/-- The value of a block string from the text between its delimiters. The first line does not count for the common
indentation and keeps its own. -/
def blockValue (raw : List Char) : List Char :=
  match splitLines raw with
  | [] => []
  | first :: lines =>
    let lines := match commonIndent lines with
      | none => lines
      | some n => lines.map (·.drop n)
    joinLines (trimBlankLines (first :: lines))

/-- Reads a block string after its opening quotes: the text up to the closing quotes, with its escaped triple quotes
replaced, and what follows. -/
def readBlock : List Char → Option (List Char × List Char)
  | '"' :: '"' :: '"' :: cs => some ([], cs)
  | '\\' :: '"' :: '"' :: '"' :: cs => (readBlock cs).map fun (raw, rest) => ('"' :: '"' :: '"' :: raw, rest)
  | c :: cs => (readBlock cs).map fun (raw, rest) => (c :: raw, rest)
  | [] => none

/-- What follows a block string is shorter than the string's text. -/
theorem length_readBlock {cs raw rest : List Char} (h : readBlock cs = some (raw, rest)) :
    rest.length < cs.length := by
  fun_induction readBlock cs generalizing raw with
  | case1 => cases h; simp only [List.length_cons]; omega
  | case2 cs ih | case3 c cs _ _ ih =>
    simp only [Option.map_eq_some_iff, Prod.mk.injEq, Prod.exists] at h
    obtain ⟨v, r, hr, -, rfl⟩ := h
    have := ih hr
    simp only [List.length_cons]
    omega
  | case4 => cases h

/-- A text with a backslash in front of each triple quote, found from left to right. -/
def escapeTripleQuotes : List Char → List Char
  | '"' :: '"' :: '"' :: cs => '\\' :: '"' :: '"' :: '"' :: escapeTripleQuotes cs
  | c :: cs => c :: escapeTripleQuotes cs
  | [] => []

/-- A value that a block string can hold: no carriage return, no blank line at either end, and no indentation that all
lines share. -/
def isBlockable (value : List Char) : Bool :=
  let lines := splitLines value
  !value.contains '\r' && !(lines.head?.elim true isBlankLine) && !(lines.getLast?.elim true isBlankLine) &&
    commonIndent lines == some 0

/-- The longest value, in bytes, that is written as a block string on one line. -/
def oneLineBlockBytes : Nat := 70

/-- A value whose block string stands on one line: it is short, and its end cannot be taken for a delimiter. -/
def fitsOneLine (value : List Char) : Bool :=
  !value.contains '\n' && (String.ofList value).utf8ByteSize ≤ oneLineBlockBytes &&
    value.getLast? != some '"' && value.getLast? != some '\\'

/-- A value written as a block string, its lines indented by `indent` blanks; an empty line stays empty. -/
def block (indent : Nat) (value : List Char) : List Char :=
  let quotes := ['"', '"', '"']
  let text := escapeTripleQuotes value
  if fitsOneLine value then quotes ++ text ++ quotes
  else
    let margin := List.replicate indent ' '
    let lines := (splitLines text).map fun line => if line.isEmpty then '\n' :: line else '\n' :: margin ++ line
    quotes ++ lines.flatten ++ '\n' :: margin ++ quotes

end SchemaWeave.Graphql
