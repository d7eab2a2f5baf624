/-!
# Hexadecimal digits

Reading a digit in either case (`hexValue?`), writing one (`hexDigit`), and the four-digit form that escapes of
characters use. `hexValue?` undoes both ways of writing (`hexValue?_hexDigit`).
-/

namespace SchemaWeave.Text

/-- The value of a hexadecimal digit, in either case. -/
def hexValue? (c : Char) : Option Nat :=
  if '0' ≤ c ∧ c ≤ '9' then some (c.toNat - '0'.toNat)
  else if 'a' ≤ c ∧ c ≤ 'f' then some (c.toNat - 'a'.toNat + 10)
  else if 'A' ≤ c ∧ c ≤ 'F' then some (c.toNat - 'A'.toNat + 10)
  else none

/-- The digit of a value below sixteen; `upper` asks for capital letters. -/
def hexDigit (upper : Bool) (n : Nat) : Char :=
  if n < 10 then Char.ofNat (n + '0'.toNat)
  else if upper then Char.ofNat (n - 10 + 'A'.toNat)
  else Char.ofNat (n - 10 + 'a'.toNat)

/-- Writing a digit and reading it is the identity. -/
theorem hexValue?_hexDigit (upper : Bool) {n : Nat} (h : n < 16) : hexValue? (hexDigit upper n) = some n := by
  revert upper; revert h; revert n; decide

/-- The value of four hexadecimal digits. -/
def hexQuad? (a b c d : Char) : Option Nat := do
  let a ← hexValue? a
  let b ← hexValue? b
  let c ← hexValue? c
  let d ← hexValue? d
  return ((a * 16 + b) * 16 + c) * 16 + d

/-- A value below 2^16 in four hexadecimal digits. -/
def hexQuad (upper : Bool) (n : Nat) : List Char :=
  [hexDigit upper (n / 4096 % 16), hexDigit upper (n / 256 % 16), hexDigit upper (n / 16 % 16),
    hexDigit upper (n % 16)]

/-- Four digits are put together from the left. -/
theorem hexQuad_value {n : Nat} (h : n < 65536) :
    ((n / 4096 % 16 * 16 + n / 256 % 16) * 16 + n / 16 % 16) * 16 + n % 16 = n := by omega

/-- The digits of a value in base sixteen, lower case, without leading zeros. -/
def hexDigits (n : Nat) : List Char :=
  Nat.toDigits 16 n

end SchemaWeave.Text
