/-!
# Double precision numbers

A finite double as sign, significand and binary exponent, with the two ways in which one arises here: rounding a
quotient of naturals to the nearest double (`roundQuotient`, ties to the even significand), and combining two doubles.
All of it is exact arithmetic on naturals.
-/

namespace SchemaWeave.Floating

/-- A finite double: `significand * 2 ^ exponent`, negated if `negative`. Values made by `roundQuotient` have the largest
significand below `2 ^ 53` that their value allows. -/
structure Binary64 where
  negative : Bool
  significand : Nat
  exponent : Int
  deriving DecidableEq, Repr

namespace Binary64

/-- The least exponent of a double. -/
def minExponent : Int := -1074

/-- The greatest exponent of a double. -/
def maxExponent : Int := 971

/-- The quotient of two naturals rounded to the nearest natural, a half to the even one. -/
def roundDiv (num den : Nat) : Nat :=
  let q := num / den
  let r := num % den
  if 2 * r > den ∨ (2 * r = den ∧ q % 2 = 1) then q + 1 else q

/-- The quotient `num / den` divided by `2 ^ e`, again as a quotient. -/
def scaleDown (num den : Nat) : Int → Nat × Nat
  | .ofNat e => (num, den * Nat.pow 2 e)
  | .negSucc e => (num * Nat.pow 2 (e + 1), den)

/-- The exponent at which `num / den` has a significand of 53 bits, or the least exponent if the quotient is small. -/
def exponentOf (num den : Nat) : Int :=
  let e := max ((num.log2 : Int) - den.log2 - 53) minExponent
  let (n, d) := scaleDown num den e
  if n / d < Nat.pow 2 53 then e else e + 1

/-- The double nearest to a quotient, unless it is too large for any. -/
def roundQuotient (negative : Bool) (num den : Nat) : Option Binary64 :=
  if num = 0 then some ⟨negative, 0, minExponent⟩
  else
    let e := exponentOf num den
    let (n, d) := scaleDown num den e
    let m := roundDiv n d
    let (m, e) := if m = Nat.pow 2 53 then (Nat.pow 2 52, e + 1) else (m, e)
    if maxExponent < e then none else some ⟨negative, m, e⟩

/-- The double nearest to a natural number. -/
def ofNat (n : Nat) : Option Binary64 := roundQuotient false n 1

/-- The magnitude of a double as a quotient. -/
def quotient (x : Binary64) : Nat × Nat :=
  match x.exponent with
  | .ofNat e => (x.significand * Nat.pow 2 e, 1)
  | .negSucc e => (x.significand, Nat.pow 2 (e + 1))

/-- The product of two doubles, rounded. -/
def mul (x y : Binary64) : Option Binary64 :=
  let (a, b) := x.quotient
  let (c, d) := y.quotient
  roundQuotient (x.negative != y.negative) (a * c) (b * d)

/-- The quotient of two doubles, rounded; the divisor is not zero. -/
def div (x y : Binary64) : Option Binary64 :=
  let (a, b) := x.quotient
  let (c, d) := y.quotient
  roundQuotient (x.negative != y.negative) (a * d) (b * c)

def isZero (x : Binary64) : Bool := x.significand == 0

/-- The double with the sign set. -/
def withSign (negative : Bool) (x : Binary64) : Binary64 := { x with negative }

end Binary64

end SchemaWeave.Floating
