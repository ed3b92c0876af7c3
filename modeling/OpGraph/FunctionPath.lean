import OpGraph.Text.Dotted
import Std.Data.ExtTreeMap

/-!
# Functions by path

A call names its function by a dotted path, and two calls reach the same function exactly when
their paths are equal.  Paths are ordered as texts, which makes them keys of ordered tables.
-/

namespace OpGraph

/-- The qualified identity of a callable function. -/
@[ext]
structure FunctionPath where
  /-- The full dotted path. -/
  path : String
deriving DecidableEq, Repr

namespace FunctionPath

/-- The last segment of the path. -/
def name (function : FunctionPath) : String :=
  Dotted.lastSegment function.path

/-- Everything before the last segment, or the empty text for a bare name. -/
def namespacePath (function : FunctionPath) : String :=
  Dotted.qualifier function.path

instance : Ord FunctionPath where
  compare := compareOn FunctionPath.path

instance : Std.TransOrd FunctionPath :=
  inferInstanceAs (Std.TransCmp (compareOn FunctionPath.path))

instance : Std.LawfulEqOrd FunctionPath where
  compare_self {function} := Std.ReflOrd.compare_self (a := function.path)
  eq_of_compare {left right} equal :=
    have paths : compare left.path right.path = .eq := equal
    FunctionPath.ext (Std.LawfulEqOrd.eq_of_compare paths)

/-- Reads an attribute of a value by name. -/
def getAttribute : FunctionPath := ⟨"builtins.getattr"⟩

/-- Division of numbers that keeps the fractional part. -/
def trueDivision : FunctionPath := ⟨"_operator.truediv"⟩

end FunctionPath

end OpGraph
