import SchemaWeave.Floating.Binary64

/-!
# The shortest decimal of a double

`Binary64.shortest` finds the fewest decimal digits that read back as a given double, and of those the digits nearest to
its value. For each number of digits only the two neighbours of the value on that decimal grid need a look: if any point
of the grid reads back, one of them does.
-/

namespace SchemaWeave.Floating

/-- A positive decimal: `digits * 10 ^ exponent`. -/
structure Decimal where
  digits : Nat
  exponent : Int
  deriving DecidableEq, Repr

namespace Decimal

/-- A decimal as a quotient. -/
def quotient (d : Decimal) : Nat × Nat :=
  match d.exponent with
  | .ofNat e => (d.digits * Nat.pow 10 e, 1)
  | .negSucc e => (d.digits, Nat.pow 10 (e + 1))

/-- Whether one quotient is at most another. -/
def quotientLe (a b : Nat × Nat) : Bool := a.1 * b.2 ≤ b.1 * a.2

/-- Whether one quotient is below another. -/
def quotientLt (a b : Nat × Nat) : Bool := a.1 * b.2 < b.1 * a.2

end Decimal

namespace Binary64

open Decimal (quotientLe quotientLt)

/-- The midpoint between a positive double and the next one up. -/
def upperBound (x : Binary64) : Nat × Nat :=
  Binary64.quotient ⟨false, 2 * x.significand + 1, x.exponent - 1⟩

/-- The midpoint between a positive double and the next one down, which is nearer where the exponent changes. -/
def lowerBound (x : Binary64) : Nat × Nat :=
  if x.significand = Nat.pow 2 52 ∧ minExponent < x.exponent then
    Binary64.quotient ⟨false, 4 * x.significand - 1, x.exponent - 2⟩
  else Binary64.quotient ⟨false, 2 * x.significand - 1, x.exponent - 1⟩

/-- Whether a decimal reads back as the positive double `x`. The midpoints belong to an even significand. -/
def readsBack (x : Binary64) (d : Decimal) : Bool :=
  if x.significand % 2 = 0 then quotientLe x.lowerBound d.quotient && quotientLe d.quotient x.upperBound
  else quotientLt x.lowerBound d.quotient && quotientLt d.quotient x.upperBound

/-- The exponent of the first decimal digit of a positive double. -/
def decimalExponent (x : Binary64) : Int :=
  let q := x.quotient
  let guess : Int := (((q.1.log2 : Int) - q.2.log2) * 30103).fdiv 100000
  let atLeast (k : Int) : Bool := quotientLe (Decimal.quotient ⟨1, k⟩) q
  if atLeast (guess + 1) then guess + 1
  else if atLeast guess then guess
  else guess - 1

/-- The decimals with a given exponent next to a positive double, below and above. -/
def neighbours (x : Binary64) (exponent : Int) : Decimal × Decimal :=
  let (a, b) := x.quotient
  let below := match exponent with
    | .ofNat e => a / (b * Nat.pow 10 e)
    | .negSucc e => a * Nat.pow 10 (e + 1) / b
  (⟨below, exponent⟩, ⟨below + 1, exponent⟩)

/-- Whether a positive double is nearer to the first of its two neighbours; a tie goes to the even one. -/
def nearerBelow (x : Binary64) (below above : Decimal) : Bool :=
  let twice := Binary64.quotient ⟨false, 2 * x.significand, x.exponent⟩
  let middle := Decimal.quotient ⟨below.digits + above.digits, below.exponent⟩
  quotientLt twice middle || (quotientLe twice middle && below.digits % 2 == 0)

/-- The neighbour with a given exponent that reads back, the nearer one if both do. -/
def candidate? (x : Binary64) (exponent : Int) : Option Decimal :=
  let (below, above) := x.neighbours exponent
  match x.readsBack below, x.readsBack above with
  | true, true => some (if x.nearerBelow below above then below else above)
  | true, false => some below
  | false, true => some above
  | false, false => none

/-- The digits by which any double can be told from all others. -/
def sufficientDigits : Nat := 17

/-- The shortest decimal that reads back as a positive double. -/
def shortest (x : Binary64) : Decimal :=
  let k := x.decimalExponent
  let exponents := (List.range sufficientDigits).map fun (n : Nat) => k - (n : Int)
  (exponents.findSome? x.candidate?).getD (x.neighbours (k - sufficientDigits + 1)).1

end Binary64

end SchemaWeave.Floating
