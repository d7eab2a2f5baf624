import SchemaWeave.Floating.Binary64

/-!
# Doubles by their spelling

Whether a spelled number has a finite double. A number whose exponent is beyond `cutoff` is decided by the exponent alone,
so that no power of ten is too large to compute.
-/

namespace SchemaWeave.Floating

/-- The value of decimal digits. -/
def naturalOf (digits : List Char) : Nat := digits.foldl (fun n c => n * 10 + (c.toNat - '0'.toNat)) 0

/-- A spelled number: its digits as a whole number, the number of them behind the point, and its exponent. -/
structure Spelling where
  digits : Nat
  places : Nat
  exponent : Int

/-- The exponent that digits with a sign stand for. -/
def exponentOf : List Char → Int
  | '-' :: digits => -(naturalOf digits : Int)
  | '+' :: digits => naturalOf digits
  | digits => naturalOf digits

/-- The parts of a number that is spelled as the schema language allows, its sign left out. -/
def Spelling.ofChars (cs : List Char) : Spelling :=
  let cs := match cs with
    | '-' :: cs => cs
    | cs => cs
  let whole := cs.takeWhile Char.isDigit
  let rest := cs.dropWhile Char.isDigit
  let (places, rest) := match rest with
    | '.' :: rest => (rest.takeWhile Char.isDigit, rest.dropWhile Char.isDigit)
    | rest => ([], rest)
  { digits := naturalOf (whole ++ places), places := places.length,
    exponent := match rest with
      | 'e' :: digits | 'E' :: digits => exponentOf digits
      | _ => 0 }

/-- A decimal exponent beyond which a number that is not zero has no finite double. -/
def cutoff : Int := 400

/-- Whether the double nearest to a spelled number is finite. -/
def Spelling.isFinite (s : Spelling) : Bool :=
  let e := s.exponent - s.places
  if s.digits = 0 then true
  else if e < -cutoff then
    -- only digits without end could make up for the exponent
    decide ((Nat.toDigits 10 s.digits).length + e ≤ cutoff)
  else if cutoff < e then false
  else match e with
    | .ofNat n => (Binary64.roundQuotient false (s.digits * Nat.pow 10 n) 1).isSome
    | .negSucc n => (Binary64.roundQuotient false s.digits (Nat.pow 10 (n + 1))).isSome

end SchemaWeave.Floating
