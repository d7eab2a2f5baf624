import SchemaWeave.Json.Value
import SchemaWeave.Json.Fault

/-!
# Numbers in a JSON text

A numeral without point and exponent that fits 64 bits is an integer. Any other is a double, made from the digits that fit
an unsigned word and a power of ten: the digits are rounded first, and then multiplied or divided by the nearest double
to the power. So a double may differ in its last bit from the one nearest to the numeral.
-/

namespace SchemaWeave.Json

open Floating (Binary64)

/-- The greatest unsigned word. -/
def maxWord : Nat := Nat.pow 2 64 - 1

/-- The greatest exponent that is kept as it is. -/
def maxExponent : Nat := Nat.pow 2 31 - 1

/-- The value of a decimal digit. -/
def digit? (c : Char) : Option Nat := if c.isDigit then some (c.toNat - '0'.toNat) else none

/-- The greatest power of ten that is used in one step. -/
def maxPower : Nat := 308

/-- The double nearest to a power of ten. -/
def powerOfTen (n : Nat) : Option Binary64 := Binary64.ofNat (Nat.pow 10 n)

/-- A double divided by a power of ten in steps of at most `maxPower`; `steps` bounds their number. -/
def divideByPower : (steps : Nat) → Binary64 → Nat → Option Binary64
  | 0, x, _ => some x
  | steps + 1, x, n =>
    if x.isZero then some x
    else if n ≤ maxPower then (powerOfTen n).bind x.div
    else ((powerOfTen maxPower).bind x.div).bind fun y => divideByPower steps y (n - maxPower)

/-- The double of a word and a power of ten, unless it is too large. -/
def scaled (negative : Bool) (significand : Nat) (exponent : Int) : Option Binary64 := do
  let x ← Binary64.ofNat significand
  let y ← match exponent with
    | .ofNat n =>
      if x.isZero then some x
      else if n ≤ maxPower then (powerOfTen n).bind x.mul
      else none
    | .negSucc n => divideByPower 8 x (n + 1)
  return y.withSign negative

/-- The double of a word and a power of ten, noticed as too large behind the numeral. -/
def finish (negative : Bool) (significand : Nat) (exponent : Int) : Reading Binary64 := fun rest =>
  match scaled negative significand exponent with
  | some x => .ok (x, rest)
  | none => .error (Problem.numberOutOfRange.here rest)

/-- The digits of an exponent, kept while they fit a signed word; `none` stands for a larger exponent, whose last digit
read is the one that went too far. -/
def exponentDigits : Nat → List Char → Option Nat × List Char
  | n, [] => (some n, [])
  | n, c :: cs =>
    match digit? c with
    | none => (some n, c :: cs)
    | some d => if maxExponent < n * 10 + d then (none, cs) else exponentDigits (n * 10 + d) cs

/-- An exponent, after its letter. -/
def readExponent (negative : Bool) (significand : Nat) (exponent : Int) : Reading Binary64 := fun cs =>
  let (down, cs) := match cs with
    | '+' :: cs => (false, cs)
    | '-' :: cs => (true, cs)
    | cs => (false, cs)
  match cs with
  | [] => .error (Problem.eofInValue.here [])
  | c :: rest =>
    match digit? c with
    | none => .error ⟨.invalidNumber, c :: rest, 1⟩
    | some d =>
      match exponentDigits d rest with
      | (some n, rest) => finish negative significand (if down then exponent - n else exponent + n) rest
      | (none, rest) =>
        if significand ≠ 0 ∧ !down then .error (Problem.numberOutOfRange.here rest)
        else .ok ((Binary64.mk negative 0 Binary64.minExponent), rest.dropWhile Char.isDigit)

/-- An exponent, if its letter comes; else the numeral ends. -/
def readExponentPart (negative : Bool) (significand : Nat) (exponent : Int) : Reading Binary64
  | 'e' :: cs | 'E' :: cs => readExponent negative significand exponent cs
  | cs => finish negative significand exponent cs

/-- The digits after a point, of which those count that fit an unsigned word together with the ones before. `places` is
the number of those read so far. -/
def readPlaces (negative : Bool) (places : Nat) (significand : Nat) (exponent : Int) : Reading Binary64
  | [] =>
    if places = 0 then .error (Problem.eofInValue.ahead [])
    else readExponentPart negative significand (exponent - places) []
  | c :: cs =>
    match digit? c with
    | some d =>
      if maxWord < significand * 10 + d then
        readExponentPart negative significand (exponent - places) (cs.dropWhile Char.isDigit)
      else readPlaces negative (places + 1) (significand * 10 + d) exponent cs
    | none =>
      if places = 0 then .error (Problem.invalidNumber.ahead (c :: cs))
      else readExponentPart negative significand (exponent - places) (c :: cs)

/-- What follows the digits that an unsigned word could not hold: each counts as a factor of ten. -/
def readLong (negative : Bool) (significand : Nat) (cs : List Char) : Except Fault (Binary64 × List Char) :=
  let extra := (cs.takeWhile Char.isDigit).length
  match cs.dropWhile Char.isDigit with
  | '.' :: rest => readPlaces negative 0 significand extra rest
  | rest => readExponentPart negative significand extra rest

/-- An integer: negative zero, and negative numbers below 64 bits, are doubles. -/
def integerOf (negative : Bool) (significand : Nat) : Json.Number :=
  if !negative then .int significand
  else if significand = 0 ∨ Nat.pow 2 63 < significand then
    .float (((Binary64.ofNat significand).getD ⟨false, 0, Binary64.minExponent⟩).withSign true)
  else .int (-significand)

/-- The digits before a point, and the rest of the numeral. -/
def readWhole (negative : Bool) (significand : Nat) : Reading Json.Number
  | [] => .ok (integerOf negative significand, [])
  | c :: cs =>
    match digit? c with
    | some d =>
      if maxWord < significand * 10 + d then do
        let (x, rest) ← readLong negative significand (c :: cs)
        return (.float x, rest)
      else readWhole negative (significand * 10 + d) cs
    | none =>
      if c = '.' then do
        let (x, rest) ← readPlaces negative 0 significand 0 cs
        return (.float x, rest)
      else if c = 'e' ∨ c = 'E' then do
        let (x, rest) ← readExponent negative significand 0 cs
        return (.float x, rest)
      else .ok (integerOf negative significand, c :: cs)

/-- A numeral without its sign. -/
def readUnsigned (negative : Bool) : Reading Json.Number
  | [] => .error (Problem.eofInValue.here [])
  | '0' :: cs =>
    match cs with
    | c :: _ => if c.isDigit then .error (Problem.invalidNumber.ahead cs) else readWhole negative 0 cs
    | [] => readWhole negative 0 []
  | c :: cs =>
    match digit? c with
    | some d => readWhole negative d cs
    | none => .error ⟨.invalidNumber, c :: cs, 1⟩

/-- A numeral. -/
def readNumeral : Reading Json.Number
  | '-' :: cs => readUnsigned true cs
  | cs => readUnsigned false cs

end SchemaWeave.Json
