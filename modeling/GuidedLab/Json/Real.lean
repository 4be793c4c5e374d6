/-!
# Numbers with a fraction or an exponent

A number of a JSON text that is not a plain integer stands for a value of the 64-bit binary format
with 53 significant bits. Its value is kept as an exact rational, so whether it is whole and how it
compares with one are decided exactly.

`nearest?` rounds a quotient to that format, to the nearest value and to the even one on a tie, and
has no answer above the largest value. `scaled?` gives the value of a significand times a power of
ten in the way readers of this format do: the significand is rounded, then multiplied or divided by
the rounded power, and each step rounds again. Powers go up to `10 ^ 308`; a smaller exponent divides
in several steps, a larger one leaves the format.
-/

namespace GuidedLab.Json.Real

/-- The number of significant bits. -/
def precision : Nat := 53

/-- The least exponent of the last significant bit. -/
def leastExponent : Int := -1074

/-- The largest power of ten that a scaling step uses. -/
def largestPower : Nat := 308

/-- The quotient rounded to the nearest integer, a tie to the even one. -/
def roundHalfEven (num den : Nat) : Nat :=
  let q := num / den
  let twice := 2 * (num % den)
  if twice < den then q
  else if den < twice then q + 1
  else q + q % 2

/-- A number times a power of two. -/
def shifted (m : Nat) (e : Int) : Rat :=
  if 0 ≤ e then ((m <<< e.toNat : Nat) : Rat) else mkRat m (1 <<< (-e).toNat)

/-- The quotient of two numbers after taking out a power of two, as a numerator and a denominator. -/
def unshifted (num den : Nat) (e : Int) : Nat × Nat :=
  if 0 ≤ e then (num, den <<< e.toNat) else (num <<< (-e).toNat, den)

/-- The exponent that leaves a quotient of exactly `precision` bits before the point, but never less
than `leastExponent`. -/
def exponentFor (num den : Nat) : Int :=
  let guess : Int := (num.log2 : Int) - den.log2 - (precision - 1 : Nat)
  let (n, d) := unshifted num den guess
  let e := if n < d <<< (precision - 1) then guess - 1 else guess
  max e leastExponent

/-- The value of the format nearest to a quotient, if it is not too large. -/
def nearest? (num den : Nat) : Option Rat :=
  if num = 0 then some 0
  else
    let e := exponentFor num den
    let (n, d) := unshifted num den e
    let value := shifted (roundHalfEven n d) e
    if value < ((1 <<< 1024 : Nat) : Rat) then some value else none

/-- The rounded power of ten. -/
def powerOfTen (k : Nat) : Rat :=
  (nearest? (Nat.pow 10 k) 1).getD 0

/-- A product, rounded. -/
def times? (x y : Rat) : Option Rat :=
  let z := x * y
  nearest? z.num.toNat z.den

/-- A quotient, rounded. -/
def over? (x y : Rat) : Option Rat :=
  let z := x / y
  nearest? z.num.toNat z.den

/-- A value divided by a power of ten, in steps of the largest power. -/
def scaledDown? (x : Rat) (k : Nat) : Option Rat :=
  if k ≤ largestPower then over? x (powerOfTen k)
  else if x = 0 then some 0
  else (over? x (powerOfTen largestPower)).bind fun y => scaledDown? y (k - largestPower)
termination_by k
decreasing_by
  have : 0 < largestPower := by decide
  omega

/-- The value of a significand times a power of ten, if it is not too large. -/
def scaled? (significand : Nat) (exponent : Int) : Option Rat :=
  (nearest? significand 1).bind fun x =>
    if 0 ≤ exponent then
      if exponent ≤ largestPower then times? x (powerOfTen exponent.toNat)
      else if x = 0 then some 0
      else none
    else scaledDown? x (-exponent).toNat

end GuidedLab.Json.Real
