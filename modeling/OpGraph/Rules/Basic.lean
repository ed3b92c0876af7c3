import OpGraph.FunctionPath
import Std.Data.ExtTreeSet

/-!
# Rules

The tables that say how calls are to be changed: which methods are functions, which functions are
names for others, which submodules stay opaque, which calls return views, and which calls can
write into the storage of an argument.  All tables are plain data.
-/

namespace OpGraph

/-- Functions or names by function. -/
abbrev FunctionMap (β : Type) := Std.ExtTreeMap FunctionPath β

/-- A set of functions. -/
abbrev FunctionSet := Std.ExtTreeSet FunctionPath

/-- A set of names. -/
abbrev NameSet := Std.ExtTreeSet String

/-- The tables that drive the transformations. -/
structure Rules where
  /-- The function that a method call stands for. -/
  methodFunctions : Std.ExtTreeMap String FunctionPath := ∅
  /-- The function that replaces an alias. -/
  aliases : FunctionMap FunctionPath := ∅
  /-- Classes of submodules that are never expanded. -/
  opaqueClasses : NameSet := ∅
  /-- Operations whose result shares storage with their first argument. -/
  viewOps : NameSet := ∅
  /-- Operations whose result may share storage with their first argument. -/
  possibleViewOps : NameSet := ∅
  /-- Functions that never write into an argument. -/
  pureFunctions : FunctionSet := ∅
  /-- Packages whose functions never write into an argument. -/
  purePackages : NameSet := ∅
  /-- Functions that work in place under a flag. -/
  flagFunctions : FunctionSet := ∅
  /-- The pure function behind a function that works in place. -/
  inplaceVariants : FunctionMap FunctionPath := ∅
  /-- The pure function behind a compound assignment. -/
  destructiveOperators : FunctionMap FunctionPath := ∅
  /-- The tensor function behind an operator. -/
  operatorFunctions : FunctionMap FunctionPath := ∅
  /-- Elementwise functions of two operands, whose first operand may receive the result. -/
  elementwiseFunctions : FunctionSet := ∅
  /-- Names for functions in tallies, where the path is not wanted. -/
  displayNames : FunctionMap String := ∅
deriving DecidableEq

namespace Rules

/-- The keyword of the flag that requests work in place. -/
def inplaceKeyword : String := "inplace"

/-- The keyword of the argument that receives the result. -/
def outKeyword : String := "out"

/-- The result of an operation may share storage with its first argument. -/
def isViewOp (rules : Rules) (name : String) : Bool :=
  rules.viewOps.contains name || rules.possibleViewOps.contains name

/-- The function never writes into an argument. -/
def staysPure (rules : Rules) (function : FunctionPath) : Bool :=
  rules.pureFunctions.contains function || rules.purePackages.contains function.namespacePath

/-- The pure function behind a function that changes its first argument. -/
def pureVariant? (rules : Rules) (function : FunctionPath) : Option FunctionPath :=
  rules.inplaceVariants[function]? <|> rules.destructiveOperators[function]?

/-- Erasing a known alias leaves a smaller table. -/
theorem size_erase_lt {aliases : FunctionMap FunctionPath} {function replacement : FunctionPath}
    (known : aliases[function]? = some replacement) :
    (aliases.erase function).size < aliases.size := by
  have member : function ∈ aliases := by
    rw [← Std.ExtTreeMap.isSome_getElem?_iff_mem, known]
    rfl
  have inhabited : aliases.size ≠ 0 := by
    intro empty
    rw [Std.ExtTreeMap.eq_empty_iff_size_eq_zero.mpr empty] at member
    simp at member
  rw [Std.ExtTreeMap.size_erase, if_pos (Std.ExtTreeMap.contains_iff_mem.mpr member)]
  omega

/-- Follow a table of aliases to its end.  An alias is used once, so that a cycle ends where it is
entered. -/
def followAliases (aliases : FunctionMap FunctionPath) (function : FunctionPath) : FunctionPath :=
  match _known : aliases[function]? with
  | some replacement => followAliases (aliases.erase function) replacement
  | none => function
termination_by aliases.size
decreasing_by exact size_erase_lt _known

/-- The canonical name of a function. -/
def canonical (rules : Rules) (function : FunctionPath) : FunctionPath :=
  followAliases rules.aliases function

/-- The name of a function in tallies. -/
def displayName (rules : Rules) (function : FunctionPath) : String :=
  rules.displayNames.getD function function.path

/-- Let a method call stand for a function call. -/
def withMethod (rules : Rules) (method : String) (function : FunctionPath) : Rules :=
  { rules with methodFunctions := rules.methodFunctions.insert method function }

/-- Keep submodules of a class opaque. -/
def withOpaqueClass (rules : Rules) (className : String) : Rules :=
  { rules with opaqueClasses := rules.opaqueClasses.insert className }

/-- Keep a function from writing into an argument. -/
def withPureFunction (rules : Rules) (function : FunctionPath) : Rules :=
  { rules with pureFunctions := rules.pureFunctions.insert function }

/-- Let a function work in place under a flag. -/
def withFlagFunction (rules : Rules) (function : FunctionPath) : Rules :=
  { rules with flagFunctions := rules.flagFunctions.insert function }

end Rules

/-- Says which functions accept an argument that receives the result. -/
abbrev Signatures := FunctionPath → Bool

end OpGraph
