import SchemaWeave.Json.Value
import SchemaWeave.Floating.Shortest
import SchemaWeave.Text.Hex

/-!
# The text of a JSON value

`Json.compact` writes a value without blanks, `Json.pretty` with two blanks of indentation and one item or member per
line. Characters are written raw but for quotes, backslashes and the control characters below `U+0020`. A double has the
fewest digits that read back, in positional notation while its decimal exponent is from -5 to 15.
-/

namespace SchemaWeave.Json

open Floating Text

/-- One character inside a string. -/
def stringChar (c : Char) : List Char :=
  if c = '"' then ['\\', '"']
  else if c = '\\' then ['\\', '\\']
  else if c = '\x08' then ['\\', 'b']
  else if c = '\x0c' then ['\\', 'f']
  else if c = '\n' then ['\\', 'n']
  else if c = '\r' then ['\\', 'r']
  else if c = '\t' then ['\\', 't']
  else if c.val < 0x20 then '\\' :: 'u' :: hexQuad false c.toNat
  else [c]

/-- A string in quotes. -/
def stringChars (s : String) : List Char :=
  '"' :: (s.toList.flatMap stringChar ++ ['"'])

/-- The decimal digits of a natural number. -/
def naturalChars (n : Nat) : List Char := Nat.toDigits 10 n

def integerChars : Int → List Char
  | .ofNat n => naturalChars n
  | .negSucc n => '-' :: naturalChars (n + 1)

/-- The least exponent of the first digit that is written positionally. -/
def leastPositional : Int := -5

/-- The greatest exponent of the first digit that is written positionally. -/
def greatestPositional : Int := 15

/-- A decimal with its point: positional within bounds, else with an exponent that shows its sign. -/
def decimalChars (d : Decimal) : List Char :=
  let digits := naturalChars d.digits
  let count := digits.length
  let k := d.exponent + count - 1
  if leastPositional ≤ k ∧ k ≤ greatestPositional then
    if k < 0 then '0' :: '.' :: List.replicate (-k - 1).toNat '0' ++ digits
    else
      let whole := k.toNat + 1
      if count ≤ whole then digits ++ List.replicate (whole - count) '0' ++ ['.', '0']
      else digits.take whole ++ '.' :: digits.drop whole
  else
    let exponent := if k < 0 then '-' :: naturalChars (-k).toNat else '+' :: naturalChars k.toNat
    match digits with
    | [] => []
    | [digit] => digit :: 'e' :: exponent
    | digit :: digits => digit :: '.' :: digits ++ 'e' :: exponent

/-- A decimal without zeros at the end of its digits. -/
def trimDecimal : (steps : Nat) → Decimal → Decimal
  | 0, d => d
  | steps + 1, d => if d.digits % 10 = 0 then trimDecimal steps ⟨d.digits / 10, d.exponent + 1⟩ else d

/-- A double in the fewest digits that read back. -/
def doubleChars (x : Binary64) : List Char :=
  let magnitude :=
    if x.isZero then ['0', '.', '0']
    else decimalChars (trimDecimal Binary64.sufficientDigits x.shortest)
  if x.negative then '-' :: magnitude else magnitude

def Number.chars : Number → List Char
  | int value => integerChars value
  | float value => doubleChars value

mutual

/-- A value without blanks. -/
def compactChars : Json → List Char
  | null => ['n', 'u', 'l', 'l']
  | bool true => ['t', 'r', 'u', 'e']
  | bool false => ['f', 'a', 'l', 's', 'e']
  | number n => n.chars
  | string s => stringChars s
  | array items => '[' :: itemChars items ++ [']']
  | object members => '{' :: memberChars members ++ ['}']

def itemChars : List Json → List Char
  | [] => []
  | item :: items => item.compactChars ++ (if items.isEmpty then [] else [',']) ++ itemChars items

def memberChars : List (String × Json) → List Char
  | [] => []
  | (key, value) :: members =>
    stringChars key ++ ':' :: value.compactChars ++ (if members.isEmpty then [] else [',']) ++ memberChars members

end

/-- The text of a value without blanks. -/
def compact (j : Json) : String := String.ofList j.compactChars

/-- A line end and the indentation of a nesting level. -/
def lineStart (level : Nat) : List Char := '\n' :: List.replicate (2 * level) ' '

mutual

/-- A value over several lines, at a nesting level. -/
def prettyChars (level : Nat) : Json → List Char
  | array items =>
    if items.isEmpty then ['[', ']'] else '[' :: prettyItems (level + 1) items ++ lineStart level ++ [']']
  | object members =>
    if members.isEmpty then ['{', '}'] else '{' :: prettyMembers (level + 1) members ++ lineStart level ++ ['}']
  | null => ['n', 'u', 'l', 'l']
  | bool true => ['t', 'r', 'u', 'e']
  | bool false => ['f', 'a', 'l', 's', 'e']
  | number n => n.chars
  | string s => stringChars s

def prettyItems (level : Nat) : List Json → List Char
  | [] => []
  | item :: items =>
    lineStart level ++ item.prettyChars level ++ (if items.isEmpty then [] else [',']) ++ prettyItems level items

def prettyMembers (level : Nat) : List (String × Json) → List Char
  | [] => []
  | (key, value) :: members =>
    lineStart level ++ stringChars key ++ ':' :: ' ' :: value.prettyChars level ++
      (if members.isEmpty then [] else [',']) ++ prettyMembers level members

end

/-- The text of a value over several lines. -/
def pretty (j : Json) : String := String.ofList (j.prettyChars 0)

end SchemaWeave.Json
