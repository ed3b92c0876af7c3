import OpGraph.Binary64

/-!
# Shortest decimals

The decimal numbers that read back as a given double fill an interval around it.  Of the powers of
ten whose multiples meet that interval, the largest gives the fewest digits, and `shortest` is the
multiple of it that lies nearest to the double.  Where two multiples lie equally near, a rule for
ties decides.
-/

namespace OpGraph

/-- A decimal number `coefficient · 10 ^ exponent`. -/
structure Decimal where
  /-- The significant digits, read as a natural number. -/
  coefficient : Nat
  /-- The power of ten of the last significant digit. -/
  exponent : Int
deriving DecidableEq, Repr

namespace Decimal

/-- Which of two neighbouring integers is taken for a point in the middle between them. -/
inductive Tie where
  /-- The larger one. -/
  | up
  /-- The even one. -/
  | even
deriving DecidableEq, Repr

/-- The integer taken for the point in the middle between an integer and its successor. -/
def Tie.settle : Tie → Nat → Nat
  | up, below => below + 1
  | even, below => if below % 2 = 0 then below else below + 1

/-- An interval of rationals around a point, all over one denominator. -/
structure Neighbourhood where
  /-- Numerator of the lower end. -/
  lower : Nat
  /-- Numerator of the point itself. -/
  centre : Nat
  /-- Numerator of the upper end. -/
  upper : Nat
  /-- The common denominator. -/
  denominator : Nat
  /-- The ends belong to the interval. -/
  closed : Bool

namespace Neighbourhood

/-- The reals that round to a positive finite double, a tie going to the even significand. -/
def ofBinary64 (number : Binary64) : Neighbourhood :=
  let significand := number.significand
  let gapBelow := if number.isBinadeStart then 1 else 2
  let factor := Nat.pow 2 (number.scale - 2).toNat
  { lower := (4 * significand - gapBelow) * factor
    centre := 4 * significand * factor
    upper := (4 * significand + 2) * factor
    denominator := Nat.pow 2 (2 - number.scale).toNat
    closed := significand % 2 == 0 }

/-- The same interval measured in units of `10 ^ exponent`. -/
def inUnits (interval : Neighbourhood) (exponent : Int) : Neighbourhood :=
  let stretch := Nat.pow 10 (-exponent).toNat
  { interval with
    lower := interval.lower * stretch
    centre := interval.centre * stretch
    upper := interval.upper * stretch
    denominator := interval.denominator * Nat.pow 10 exponent.toNat }

/-- The integer lies in the interval. -/
def holds (interval : Neighbourhood) (value : Nat) : Bool :=
  let scaled := value * interval.denominator
  if interval.closed then
    interval.lower ≤ scaled && scaled ≤ interval.upper
  else
    interval.lower < scaled && scaled < interval.upper

/-- The integer of the interval nearest to its point. -/
def nearest? (interval : Neighbourhood) (tie : Tie) : Option Nat :=
  let below := interval.centre / interval.denominator
  let above := below + 1
  let offset := interval.centre % interval.denominator
  match interval.holds below, interval.holds above with
  | true, true =>
    match compare (2 * offset) interval.denominator with
    | .lt => some below
    | .eq => some (tie.settle below)
    | .gt => some above
  | true, false => some below
  | false, true => some above
  | false, false => none

/-- A power of ten above every number of the interval. -/
def topExponent (interval : Neighbourhood) : Int :=
  ((Nat.toDigits 10 interval.upper).length : Int)
    - (Nat.toDigits 10 interval.denominator).length + 1

end Neighbourhood

/-- The decimal with the fewest digits that reads back as a positive finite double. -/
def shortest (tie : Tie) (number : Binary64) : Decimal :=
  let interval := Neighbourhood.ofBinary64 number
  let top := interval.topExponent
  ((List.range 24).findSome? fun (depth : Nat) =>
    let exponent := top - (depth : Int)
    match (interval.inUnits exponent).nearest? tie with
    | some coefficient => if coefficient = 0 then none else some ⟨coefficient, exponent⟩
    | none => none).getD ⟨0, 0⟩

end Decimal

end OpGraph
