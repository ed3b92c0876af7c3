/-!
# Double-precision numbers

A double is kept as its 64 bits, so that two numbers that print alike and the payloads of
not-a-number values stay apart.  `Binary64.sameNumber` is the comparison of numbers: it identifies
the two zeros and holds of no not-a-number value.
-/

namespace OpGraph

/-- A double-precision number in the binary interchange format. -/
structure Binary64 where
  /-- Sign, exponent and fraction, from the most significant bit down. -/
  bits : UInt64
deriving DecidableEq, Repr

namespace Binary64

/-- The sign bit is set. -/
def isNegative (number : Binary64) : Bool :=
  Nat.pow 2 63 ≤ number.bits.toNat

/-- The bits below the sign. -/
def magnitudeBits (number : Binary64) : Nat :=
  number.bits.toNat % Nat.pow 2 63

/-- The biased exponent. -/
def biasedExponent (number : Binary64) : Nat :=
  number.magnitudeBits / Nat.pow 2 52

/-- The stored fraction, without the implicit leading bit. -/
def fraction (number : Binary64) : Nat :=
  number.magnitudeBits % Nat.pow 2 52

/-- Not a number. -/
def isNaN (number : Binary64) : Bool :=
  number.biasedExponent == 2047 && number.fraction != 0

/-- One of the two infinities. -/
def isInfinite (number : Binary64) : Bool :=
  number.biasedExponent == 2047 && number.fraction == 0

/-- One of the two zeros. -/
def isZero (number : Binary64) : Bool :=
  number.magnitudeBits == 0

/-- Equality of numbers: the zeros are equal, and not-a-number equals nothing. -/
def sameNumber (left right : Binary64) : Bool :=
  !left.isNaN && !right.isNaN && (left.bits == right.bits || (left.isZero && right.isZero))

/-- The integer significand of a finite number. -/
def significand (number : Binary64) : Nat :=
  if number.biasedExponent = 0 then number.fraction else Nat.pow 2 52 + number.fraction

/-- The power of two that scales the significand of a finite number. -/
def scale (number : Binary64) : Int :=
  (max number.biasedExponent 1 : Int) - 1075

/-- The number below is only half as far away as the number above. -/
def isBinadeStart (number : Binary64) : Bool :=
  number.fraction == 0 && 1 < number.biasedExponent

end Binary64

end OpGraph
