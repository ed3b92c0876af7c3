import OpGraph.Decimal.Style
import OpGraph.Text.Quoted

/-!
# Literals

The constants that stand directly among the arguments of a call.  `Literal.agrees` is the
program's comparison: it is structural, except that doubles are compared as numbers, so that a
not-a-number literal does not even agree with itself.
-/

namespace OpGraph

/-- A constant among the arguments of a call. -/
inductive Literal where
  /-- The absent value. -/
  | null
  /-- A truth value. -/
  | bool (value : Bool)
  /-- A 64-bit integer. -/
  | int (value : Int)
  /-- A double-precision number. -/
  | float (value : Binary64)
  /-- A text. -/
  | text (value : String)
deriving DecidableEq, Repr

namespace Literal

/-- Two literals are of one kind and hold the same value, doubles being compared as numbers. -/
def agrees : Literal → Literal → Bool
  | null, null => true
  | bool left, bool right => left == right
  | int left, int right => left == right
  | float left, float right => left.sameNumber right
  | text left, text right => left == right
  | _, _ => false

/-- The literal as it is shown in a listing. -/
def shown : Literal → String
  | null => "None"
  | bool true => "true"
  | bool false => "false"
  | int value => toString value
  | float value => NumberStyle.shown.write value
  | text value => Text.quoted value

/-- The literal as a condition; numbers with a fraction and texts are none. -/
def truth? : Literal → Option Bool
  | null => some false
  | bool value => some value
  | int value => some (value != 0)
  | float _ => none
  | text _ => none

end Literal

end OpGraph
