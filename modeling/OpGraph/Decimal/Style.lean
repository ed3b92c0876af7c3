import OpGraph.Decimal.Shortest

/-!
# Styles of numbers

A style says which numbers are written positionally and which with a power of ten, and how the
values that are no numbers are spelled.  Positional numbers always have a fractional part, and
exponents are not padded.
-/

namespace OpGraph

/-- The decisions left open by the digits of a number. -/
structure NumberStyle where
  /-- The smallest exponent of the leading digit written positionally. -/
  lowestPositional : Int
  /-- The largest exponent of the leading digit written positionally. -/
  highestPositional : Int
  /-- The digits taken for a number in the middle between two shortest decimals. -/
  tie : Decimal.Tie
  /-- What stands before an exponent that is not negative. -/
  exponentSign : String
  /-- The spelling of not-a-number, which has no sign. -/
  notANumber : String
  /-- The spelling of the positive infinity. -/
  infinity : String

namespace NumberStyle

/-- A run of zeros. -/
def zeros (count : Nat) : List Char :=
  List.replicate count '0'

/-- Digits with the point after the first `whole` of them, which may lie outside the digits. -/
def positional (digits : List Char) (whole : Int) : List Char :=
  if whole ≤ 0 then
    ['0', '.'] ++ zeros (-whole).toNat ++ digits
  else if whole.toNat < digits.length then
    digits.take whole.toNat ++ ['.'] ++ digits.drop whole.toNat
  else
    digits ++ zeros (whole.toNat - digits.length) ++ ['.', '0']

/-- An exponent with its sign. -/
def signedExponent (style : NumberStyle) (exponent : Int) : List Char :=
  (if exponent < 0 then [] else style.exponentSign.toList) ++ (toString exponent).toList

/-- Digits with the point after the first one, followed by a power of ten. -/
def scientific (style : NumberStyle) (digits : List Char) (exponent : Int) : List Char :=
  let mantissa :=
    match digits with
    | first :: second :: rest => first :: '.' :: second :: rest
    | short => short
  mantissa ++ ['e'] ++ style.signedExponent exponent

/-- A positive decimal in this style. -/
def decimal (style : NumberStyle) (value : Decimal) : List Char :=
  let digits := Nat.toDigits 10 value.coefficient
  let leading : Int := digits.length + value.exponent - 1
  if style.lowestPositional ≤ leading ∧ leading ≤ style.highestPositional then
    positional digits (leading + 1)
  else
    style.scientific digits leading

/-- The magnitude of a number in this style. -/
def magnitude (style : NumberStyle) (number : Binary64) : List Char :=
  if number.isInfinite then style.infinity.toList
  else if number.isZero then ['0', '.', '0']
  else style.decimal (Decimal.shortest style.tie number)

/-- A number in this style. -/
def write (style : NumberStyle) (number : Binary64) : String :=
  if number.isNaN then style.notANumber
  else String.ofList
    ((if number.isNegative then ['-'] else []) ++ style.magnitude number)

/-- Numbers shown to a reader: positional from `10 ^ -4` and below `10 ^ 16`, exponents without a
plus sign, ties upwards. -/
def shown : NumberStyle where
  lowestPositional := -4
  highestPositional := 15
  tie := .up
  exponentSign := ""
  notANumber := "NaN"
  infinity := "inf"

/-- Numbers exchanged as data: positional from `10 ^ -5` and below `10 ^ 16`, exponents with their
sign, ties to the even digit. -/
def exchanged : NumberStyle where
  lowestPositional := -5
  highestPositional := 15
  tie := .even
  exponentSign := "+"
  notANumber := "null"
  infinity := "null"

end NumberStyle

end OpGraph
