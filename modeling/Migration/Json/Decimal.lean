/-!
# Decimals in the range of a double

A number in a text is weighed by its leading digits only, as many as fit in a word of 64 bits. The
digits that are left are not read: those before the point move the point, and those after it change
nothing. The significand and the power of ten are then rounded to doubles, each on its own, and the
number is in range when their product rounds to a finite double. A power of ten below one can only
bring a number nearer to zero, and so never out of range.
-/

namespace Migration.Json

/-- The number that a decimal digit denotes. -/
def digitValue (c : Char) : Nat := c.toNat - '0'.toNat

/-- The number that a row of decimal digits denotes. -/
def digitsValue (cs : List Char) : Nat := cs.foldl (fun n c => n * 10 + digitValue c) 0

/-- The greatest significand: the greatest word of 64 bits. -/
def maxSignificand : Nat := 0xffffffffffffffff

/-- `n` followed by as many of the digits as a significand can hold, and the digits left over. -/
def gather : Nat → List Char → Nat × List Char
  | n, [] => (n, [])
  | n, c :: cs =>
    let next := n * 10 + digitValue c
    if next ≤ maxSignificand then gather next cs else (n, c :: cs)

/-- A natural number rounded to the 53 bits of a double's significand, a tie to the even neighbour.
The greatest doubles are not a bound here: the result is what a double without one would hold. -/
def roundToDouble (n : Nat) : Nat :=
  let unit := Nat.pow 2 (n.log2 + 1 - 53)
  let lower := n / unit
  let rest := n % unit
  let roundsUp := unit < 2 * rest || (unit == 2 * rest && lower % 2 == 1)
  (if roundsUp then lower + 1 else lower) * unit

/-- The least number that does not round to a finite double: half a unit above the greatest one. -/
def doubleLimit : Nat := Nat.pow 2 1024 - Nat.pow 2 970

/-- The greatest exponent of a power of ten that is a double. -/
def maxExponent : Nat := 308

/-- A significand times a power of ten. -/
structure Decimal where
  significand : Nat
  exponent : Int
deriving DecidableEq, Repr

namespace Decimal

/-- The decimal with the given digits before and after its point and the given exponent. -/
def ofDigits (whole fraction : List Char) (exponent : Int) : Decimal :=
  let (n, wholeLeft) := gather 0 whole
  let (n, fractionLeft) := gather n fraction
  let taken : Int := fraction.length - fractionLeft.length
  ⟨n, wholeLeft.length - taken + exponent⟩

/-- The decimal rounds to a finite double. -/
def isDouble (d : Decimal) : Bool :=
  d.significand == 0 || d.exponent < 0 || (d.exponent ≤ maxExponent
    && roundToDouble d.significand * roundToDouble (Nat.pow 10 d.exponent.toNat) < doubleLimit)

end Decimal

end Migration.Json
