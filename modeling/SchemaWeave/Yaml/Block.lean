import SchemaWeave.Yaml.Cursor
import SchemaWeave.Yaml.Fault

/-!
# Block scalars

A block scalar is the indented lines below its header. In a literal one lines stay as they are; in a folded one a line end
between two lines that start with no blank is a space. The header may give the indentation, and what becomes of the line
ends after the last line.
-/

namespace SchemaWeave.Yaml

/-- What becomes of the line ends after the last line. -/
inductive Chomping
  /-- the first stays -/
  | clip
  /-- none stays -/
  | strip
  /-- all stay -/
  | keep
  deriving DecidableEq

/-- The header of a block scalar. -/
structure BlockHeader where
  chomping : Chomping := .clip
  /-- how far the lines are indented beyond the mapping, if it is given -/
  increment : Option Nat := none

/-- A sign of what becomes of the last line ends. -/
def readChomping : List Char → Option Chomping × List Char
  | '+' :: cs => (some .keep, cs)
  | '-' :: cs => (some .strip, cs)
  | cs => (none, cs)

/-- A digit of indentation; it is not zero. -/
def readIncrement : List Char → Except Fault (Option Nat × List Char)
  | [] => .ok (none, [])
  | c :: cs =>
    if c = '0' then .error .header
    else if c.isDigit then .ok (some (c.toNat - '0'.toNat), cs)
    else .ok (none, c :: cs)

/-- The sign and the digit of a header, in either order. -/
def readBlockSigns (cs : List Char) : Except Fault (BlockHeader × List Char) := do
  match readChomping cs with
  | (some chomping, cs) =>
    let (increment, cs) ← readIncrement cs
    return ({ chomping, increment }, cs)
  | (none, cs) =>
    let (increment, cs) ← readIncrement cs
    match increment with
    | none => return ({}, cs)
    | some _ =>
      let (chomping, cs) := readChomping cs
      return ({ chomping := chomping.getD .clip, increment }, cs)

/-- The text behind a comment, if there is one. -/
def dropComment : List Char → List Char
  | '#' :: cs => cs.dropWhile (!isBreak ·)
  | cs => cs

/-- The text behind a line that has only blanks and perhaps a comment left. -/
def finishLine (fault : Fault) (cs : List Char) : Except Fault (List Char) :=
  match dropComment (cs.dropWhile isBlank) with
  | [] => .ok []
  | cs =>
    match takeBreak? cs with
    | some (_, cs) => .ok cs
    | none => .error fault

/-- Whether a column is before the lines' own text; where the indentation is not known yet, every column is. -/
def isBefore (column : Nat) : (indent : Option Nat) → Bool
  | none => true
  | some indent => column < indent

/-- The end of the blanks that indent a line. -/
def dropIndent (indent : Option Nat) : (column : Nat) → List Char → Nat × List Char
  | column, ' ' :: cs => if isBefore column indent then dropIndent indent (column + 1) cs else (column, ' ' :: cs)
  | column, cs => (column, cs)

/-- What precedes a line with text of its own. -/
structure EmptyLines where
  /-- the line ends of the empty lines -/
  breaks : List Char
  /-- the furthest column at which an empty line ends, or the line with text starts -/
  deepest : Nat
  /-- the column and the text behind the indentation of the line with text -/
  column : Nat
  rest : List Char

/-- Passes over empty lines, at most `bound` of them, and the indentation of the line after them. -/
def readEmptyLines (indent : Option Nat) : (bound : Nat) → List Char → Except Fault EmptyLines
  | 0, _ => .error .unclosed
  | bound + 1, cs =>
    let (column, cs) := dropIndent indent 0 cs
    if isBefore column indent && cs.head? == some '\t' then .error .tab
    else match takeBreak? cs with
      | none => .ok { breaks := [], deepest := column, column, rest := cs }
      | some (b, cs) => do
        let below ← readEmptyLines indent bound cs
        return { below with breaks := b :: below.breaks, deepest := max column below.deepest }

/-- The line ends between a line and the next line with text. `first` is the end of the line, and `plain` says that
neither line starts with a blank. -/
def foldLines (literal : Bool) (first : List Char) (plain : Bool) (later : List Char) : List Char :=
  if !literal && first == ['\n'] && plain then (if later.isEmpty then [' '] else later) else first ++ later

/-- The line ends after the last line. -/
def chompLines (chomping : Chomping) (first later : List Char) : List Char :=
  match chomping with
  | .strip => []
  | .clip => first
  | .keep => first ++ later

/-- The lines of a block scalar, at most `bound` of them; `first` is the end of the line before and `afterBlank` whether it
starts with a blank. -/
def readLines (literal : Bool) (chomping : Chomping) (indent : Nat) :
    (bound : Nat) → (first : List Char) → (afterBlank : Bool) → EmptyLines → Except Fault (List Char × Cursor)
  | 0, _, _, _ => .error .unclosed
  | bound + 1, first, afterBlank, lines =>
    if lines.column = indent ∧ lines.rest ≠ [] then do
      let startsBlank := (lines.rest.head?.map isBlank).getD false
      let line := lines.rest.takeWhile (!isBreak ·)
      let (next, rest) := match takeBreak? (lines.rest.dropWhile (!isBreak ·)) with
        | some (b, rest) => ([b], rest)
        | none => ([], [])
      let below ← readEmptyLines (some indent) (rest.length + 1) rest
      let (text, cursor) ← readLines literal chomping indent bound next startsBlank below
      return (foldLines literal first (!afterBlank && !startsBlank) lines.breaks ++ line ++ text, cursor)
    else .ok (chompLines chomping first lines.breaks, ⟨lines.rest, lines.column, true⟩)

/-- A block scalar after its first character, in a mapping that is indented by `indent`. -/
def readBlock (literal : Bool) (indent : Nat) (cs : List Char) : Except Fault (List Char × Cursor) := do
  let (header, cs) ← readBlockSigns cs
  let cs ← finishLine .header cs
  let given := header.increment.map (indent + ·)
  let lines ← readEmptyLines given (cs.length + 1) cs
  readLines literal header.chomping (given.getD (max lines.deepest (indent + 1))) (cs.length + 1) [] false lines

end SchemaWeave.Yaml
