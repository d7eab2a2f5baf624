import SchemaWeave.Yaml.Cursor
import SchemaWeave.Yaml.Fault
import SchemaWeave.Yaml.Folding

/-!
# Plain scalars

A plain scalar has no quotes. It ends at a colon or a number sign that a blank sets apart, inside braces at punctuation, and
outside at a line that is not indented.
-/

namespace SchemaWeave.Yaml

/-- Whether a plain scalar may start with a character, by what comes after. -/
def startsPlain (flow : Bool) (c : Char) (cs : List Char) : Bool :=
  !(isBlank c || isBreak c || isIndicator c) ||
  (!endsWord cs && (c == '-' || (!flow && (c == '?' || c == ':'))))

/-- Whether a colon inside braces stands directly before punctuation, which is a fault. -/
def isStrayColon (flow : Bool) (c : Char) (cs : List Char) : Bool :=
  flow && c == ':' && (cs.head?.map fun d => [',', '?', '[', ']', '{', '}'].contains d).getD false

/-- Whether a character ends a plain scalar, wherever it stands. -/
def endsPlain (flow : Bool) (c : Char) (cs : List Char) : Bool :=
  (c == ':' && endsWord cs) || (flow && [',', '[', ']', '{', '}'].contains c)

/-- Whether a plain scalar ends before a character that a gap sets apart from the words before. -/
def endsAtGap (flow : Bool) (indent column : Nat) (c : Char) (cs : List Char) : Bool :=
  (!flow && column < indent) || isMarker column (c :: cs) || c == '#'

/-- A plain scalar from some place on, with the gap since its last word; lines have to be indented by `indent`. -/
def readPlainFrom (flow : Bool) (indent : Nat) : Gap → (column : Nat) → List Char → Except Fault (List Char × Cursor)
  | gap, column, [] => .ok ([], ⟨[], column, gap.isBroken⟩)
  | gap, _, '\r' :: '\n' :: cs => readPlainFrom flow indent (gap.addBreak '\n') 0 cs
  | gap, column, c :: cs =>
    if isBlank c then
      if gap.isBroken && column < indent && c == '\t' then .error .tab
      else readPlainFrom flow indent (gap.addBlank c) (column + 1) cs
    else if isBreak c then readPlainFrom flow indent (gap.addBreak (breakChar c)) 0 cs
    else if !gap.isNone && endsAtGap flow indent column c cs then .ok ([], ⟨c :: cs, column, gap.isBroken⟩)
    else if isStrayColon flow c cs then .error .unexpected
    else if endsPlain flow c cs then .ok ([], ⟨c :: cs, column, gap.isBroken⟩)
    else do
      let (text, cursor) ← readPlainFrom flow indent .none (column + 1) cs
      return (gap.text ++ c :: text, cursor)

/-- A plain scalar. -/
def readPlain (flow : Bool) (indent : Nat) (c : Cursor) : Except Fault (List Char × Cursor) :=
  readPlainFrom flow indent .none c.column c.rest

end SchemaWeave.Yaml
