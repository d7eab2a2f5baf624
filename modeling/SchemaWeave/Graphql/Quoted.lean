import SchemaWeave.Text.Hex

/-!
# Quoted strings

`readQuoted` reads the inside of a quoted string up to its closing quote and gives the value and what follows;
`quote` writes a value as a quoted string. A raw line break may stand nowhere but as the first character. An escape
names a character by a letter, by four hexadecimal digits (two such escapes make a surrogate pair), or by hexadecimal
digits in braces.
-/

namespace SchemaWeave.Graphql

open SchemaWeave.Text

/-- The character with this number, if there is one: surrogates are none. -/
def scalarValue? (n : Nat) : Option Char :=
  if n.isValidChar then some (Char.ofNat n) else none

/-- The first half of a surrogate pair. -/
def isLeadingSurrogate (n : Nat) : Bool := 0xD800 ≤ n && n ≤ 0xDBFF

/-- The second half of a surrogate pair. -/
def isTrailingSurrogate (n : Nat) : Bool := 0xDC00 ≤ n && n ≤ 0xDFFF

/-- The number of the character that a surrogate pair stands for. -/
def surrogatePair (leading trailing : Nat) : Nat :=
  0x10000 + (leading - 0xD800) * 0x400 + (trailing - 0xDC00)

/-- The character that a one-letter escape stands for. -/
def simpleEscape? : Char → Option Char
  | '"' => some '"'
  | '\\' => some '\\'
  | '/' => some '/'
  | 'b' => some '\x08'
  | 'f' => some '\x0c'
  | 'n' => some '\n'
  | 'r' => some '\r'
  | 't' => some '\t'
  | _ => none

/-- Where a reader of a quoted string stands. -/
inductive QuotedState
  /-- after the opening quote, where a line break may stand -/
  | start
  /-- between characters -/
  | text
  /-- after a backslash -/
  | escape
  /-- after `\u`; `leading` is the first half of a surrogate pair that waits for its second half -/
  | unicode (leading : Option Nat)
  /-- inside four hexadecimal digits, of which `left` are still to come -/
  | digits (leading : Option Nat) (left value : Nat)
  /-- inside an escape in braces, with the value of the digits read so far -/
  | braces (value : Option Nat)
  /-- after the first half of a surrogate pair, which needs an escape to follow -/
  | pair (leading : Nat)
  /-- after the backslash that follows the first half of a surrogate pair -/
  | pairEscape (leading : Nat)

/-- Puts a character in front of a value that was read. -/
def prepend (c : Char) : Option (List Char × List Char) → Option (List Char × List Char) :=
  Option.map fun (value, rest) => (c :: value, rest)

/-- The character that four hexadecimal digits complete: on their own, or as the second half of a surrogate pair. -/
def unitChar? (leading : Option Nat) (unit : Nat) : Option Char :=
  match leading with
  | none => scalarValue? unit
  | some high => if isTrailingSurrogate unit then scalarValue? (surrogatePair high unit) else none

/-- Reads a quoted string after its opening quote: its value, and what follows the closing quote. -/
def readQuoted : QuotedState → List Char → Option (List Char × List Char)
  | _, [] => none
  | .start, c :: cs =>
    if c = '"' then some ([], cs)
    else if c = '\\' then readQuoted .escape cs
    else prepend c (readQuoted .text cs)
  | .text, c :: cs =>
    if c = '"' then some ([], cs)
    else if c = '\\' then readQuoted .escape cs
    else if c = '\n' ∨ c = '\r' then none
    else prepend c (readQuoted .text cs)
  | .escape, c :: cs =>
    if c = 'u' then readQuoted (.unicode none) cs
    else match simpleEscape? c with
      | none => none
      | some ch => prepend ch (readQuoted .text cs)
  | .unicode leading, c :: cs =>
    if c = '{' ∧ leading = none then readQuoted (.braces none) cs
    else match hexValue? c with
      | none => none
      | some digit => readQuoted (.digits leading 3 digit) cs
  | .digits leading left value, c :: cs =>
    match hexValue? c with
    | none => none
    | some digit =>
      let value := value * 16 + digit
      if 1 < left then readQuoted (.digits leading (left - 1) value) cs
      else if leading = none ∧ isLeadingSurrogate value then readQuoted (.pair value) cs
      else match unitChar? leading value with
        | none => none
        | some ch => prepend ch (readQuoted .text cs)
  | .braces value, c :: cs =>
    if c = '}' then
      match value.bind scalarValue? with
      | none => none
      | some ch => prepend ch (readQuoted .text cs)
    else match hexValue? c with
      | none => none
      | some digit => readQuoted (.braces (some (value.getD 0 * 16 + digit))) cs
  | .pair leading, c :: cs => if c = '\\' then readQuoted (.pairEscape leading) cs else none
  | .pairEscape leading, c :: cs => if c = 'u' then readQuoted (.unicode (some leading)) cs else none

theorem rest_of_prepend {c : Char} {r : Option (List Char × List Char)} {value rest : List Char}
    (h : prepend c r = some (value, rest)) : ∃ v, r = some (v, rest) := by
  simp only [prepend, Option.map_eq_some_iff, Prod.mk.injEq] at h
  obtain ⟨⟨v, r'⟩, hr, -, rfl⟩ := h
  exact ⟨v, hr⟩

/-- What follows a quoted string is shorter than the string's text. -/
theorem length_readQuoted {st : QuotedState} {cs value rest : List Char}
    (h : readQuoted st cs = some (value, rest)) : rest.length < cs.length := by
  fun_induction readQuoted st cs generalizing value <;> first
    | cases h; done
    | cases h; exact Nat.lt_succ_self _
    | (rename_i ih; exact Nat.lt_succ_of_lt (ih h))
    | (rename_i ih; exact Nat.lt_succ_of_lt (ih (rest_of_prepend h).choose_spec))

/-- One character inside a quoted string. Tabs stay as they are; the other control characters below `U+0020` are
escaped. -/
def quotedChar (c : Char) : List Char :=
  if c = '"' then ['\\', '"']
  else if c = '\\' then ['\\', '\\']
  else if c = '\n' then ['\\', 'n']
  else if c = '\r' then ['\\', 'r']
  else if c = '\x08' then ['\\', 'b']
  else if c = '\x0c' then ['\\', 'f']
  else if c.val < 0x20 ∧ c ≠ '\t' then '\\' :: 'u' :: hexQuad true c.toNat
  else [c]

/-- A value written as a quoted string. -/
def quote (value : List Char) : List Char :=
  '"' :: (value.flatMap quotedChar ++ ['"'])

end SchemaWeave.Graphql
