/-!
# Blank and control characters

`Char.isBlank` is the white space of Unicode, `Char.isControl` the category of control characters. `trimBlank` takes
the blank ends off a text; what it leaves starts and ends with a character that is not blank.
-/

namespace SchemaWeave.Text

/-- The white space of Unicode: twenty-five characters, the zero-width ones not among them. -/
def isBlank (c : Char) : Bool :=
  (9 ≤ c.val && c.val ≤ 13) || c.val == 0x20 || c.val == 0x85 || c.val == 0xA0 || c.val == 0x1680 ||
  (0x2000 ≤ c.val && c.val ≤ 0x200A) || c.val == 0x2028 || c.val == 0x2029 || c.val == 0x202F ||
  c.val == 0x205F || c.val == 0x3000

/-- A control character: `U+0000` to `U+001F`, and `U+007F` to `U+009F`. -/
def isControl (c : Char) : Bool :=
  c.val < 0x20 || (0x7F ≤ c.val && c.val ≤ 0x9F)

/-- The text without its blank characters at the end. -/
def dropBlankEnd (cs : List Char) : List Char :=
  (cs.reverse.dropWhile isBlank).reverse

/-- The text without its blank characters at both ends. -/
def trimBlank (cs : List Char) : List Char :=
  dropBlankEnd (cs.dropWhile isBlank)

/-- A text that is empty or blank throughout. -/
def isBlankText (s : String) : Bool :=
  s.toList.all isBlank

end SchemaWeave.Text
