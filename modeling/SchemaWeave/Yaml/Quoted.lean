import SchemaWeave.Text.Hex
import SchemaWeave.Yaml.Cursor
import SchemaWeave.Yaml.Fault
import SchemaWeave.Yaml.Folding

/-!
# Quoted scalars

In single quotes only the quote is escaped, by writing it twice. In double quotes a backslash starts an escape, and one at
the end of a line joins the lines. Both may go over several lines, whatever their indentation.
-/

namespace SchemaWeave.Yaml

open Text

/-- The character that a one-letter escape stands for. -/
def letterEscape? : Char → Option Char
  | '0' => some '\x00'
  | 'a' => some '\x07'
  | 'b' => some '\x08'
  | 't' | '\t' => some '\t'
  | 'n' => some '\n'
  | 'v' => some '\x0b'
  | 'f' => some '\x0c'
  | 'r' => some '\r'
  | 'e' => some '\x1b'
  | ' ' => some ' '
  | '"' => some '"'
  | '/' => some '/'
  | '\\' => some '\\'
  | 'N' => some '\u0085'
  | '_' => some '\u00a0'
  | 'L' => some '\u2028'
  | 'P' => some '\u2029'
  | _ => none

/-- The number of hexadecimal digits that an escape has. -/
def escapeDigits? : Char → Option Nat
  | 'x' => some 2
  | 'u' => some 4
  | 'U' => some 8
  | _ => none

/-- The value of hexadecimal digits. -/
def hexNumber? (digits : List Char) : Option Nat :=
  digits.foldlM (fun n c => (hexValue? c).map (n * 16 + ·)) 0

/-- The character with a number; surrogates are none. -/
def charOfNumber? (n : Nat) : Option Char := if n.isValidChar then some (Char.ofNat n) else none

/-- The character of an escape, after the backslash. -/
def readEscape : List Char → Except Fault (Char × List Char)
  | [] => .error .unclosed
  | c :: cs =>
    match escapeDigits? c with
    | some count =>
      if (cs.take count).length < count then .error .escape
      else match (hexNumber? (cs.take count)).bind charOfNumber? with
        | some ch => .ok (ch, cs.drop count)
        | none => .error .escape
    | none =>
      match letterEscape? c with
      | some ch => .ok (ch, cs)
      | none => .error .escape

/-- A scalar in double quotes from some place on, and what is behind its closing quote; `bound` limits the number of
characters. -/
def readDoubleFrom : (bound : Nat) → Gap → Cursor → Except Fault (List Char × Cursor)
  | 0, _, _ => .error .unclosed
  | bound + 1, gap, c =>
    match c.rest with
    | [] => .error .unclosed
    | ch :: cs =>
      if isBlank ch then readDoubleFrom bound (gap.addBlank ch) (c.next cs)
      else match takeBreak? (ch :: cs) with
      | some (b, rest) => readDoubleFrom bound (gap.addBreak b) ⟨rest, 0, false⟩
      | none =>
        if c.isAtMarker then .error .marker
        else if ch = '"' then .ok (gap.text, c.next cs)
        else if ch = '\\' then
          match takeBreak? cs with
          | some (_, rest) => do
            let (text, behind) ← readDoubleFrom bound (.breaks none []) ⟨rest, 0, false⟩
            return (gap.text ++ text, behind)
          | none => do
            let (ch, rest) ← readEscape cs
            let (text, behind) ← readDoubleFrom bound .none (c.after rest)
            return (gap.text ++ ch :: text, behind)
        else do
          let (text, behind) ← readDoubleFrom bound .none (c.next cs)
          return (gap.text ++ ch :: text, behind)

/-- A scalar in double quotes, after its opening quote. -/
def readDouble (c : Cursor) : Except Fault (List Char × Cursor) := readDoubleFrom (c.rest.length + 1) .none c

/-- A scalar in single quotes from some place on, and what is behind its closing quote; `bound` limits the number of
characters. -/
def readSingleFrom : (bound : Nat) → Gap → Cursor → Except Fault (List Char × Cursor)
  | 0, _, _ => .error .unclosed
  | bound + 1, gap, c =>
    match c.rest with
    | [] => .error .unclosed
    | ch :: cs =>
      if isBlank ch then readSingleFrom bound (gap.addBlank ch) (c.next cs)
      else match takeBreak? (ch :: cs) with
      | some (b, rest) => readSingleFrom bound (gap.addBreak b) ⟨rest, 0, false⟩
      | none =>
        if c.isAtMarker then .error .marker
        else match ch, cs with
        | '\x27', '\x27' :: rest => do
          let (text, behind) ← readSingleFrom bound .none (c.after rest)
          return (gap.text ++ '\x27' :: text, behind)
        | '\x27', cs => .ok (gap.text, c.next cs)
        | ch, cs => do
          let (text, behind) ← readSingleFrom bound .none (c.next cs)
          return (gap.text ++ ch :: text, behind)

/-- A scalar in single quotes, after its opening quote. -/
def readSingle (c : Cursor) : Except Fault (List Char × Cursor) := readSingleFrom (c.rest.length + 1) .none c

end SchemaWeave.Yaml
