import SchemaWeave.Text.Hex
import SchemaWeave.Text.Printable

/-!
# Texts quoted in messages

`quoted` puts a text in quotes so that a reader sees every character of it: quotes and backslashes are escaped, and what
does not print is shown by a letter or by its number.
-/

namespace SchemaWeave.Text

/-- One character of a quoted text. -/
def quotedChar (c : Char) : List Char :=
  if c = '\x00' then ['\\', '0']
  else if c = '\t' then ['\\', 't']
  else if c = '\n' then ['\\', 'n']
  else if c = '\r' then ['\\', 'r']
  else if c = '"' then ['\\', '"']
  else if c = '\\' then ['\\', '\\']
  else if isPrintable c then [c]
  else '\\' :: 'u' :: '{' :: hexDigits c.toNat ++ ['}']

/-- A text in quotes. -/
def quoted (s : String) : String :=
  String.ofList ('"' :: (s.toList.flatMap quotedChar ++ ['"']))

end SchemaWeave.Text
