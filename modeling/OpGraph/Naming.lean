import OpGraph.Rules.Basic
import OpGraph.Submodule

/-!
# Names and roles of nodes

What a node is called in tallies, and how its value relates to those of its arguments: whether it
may be a view of the first one, and which one the node writes into.
-/

namespace OpGraph

namespace Node

/-- The short name of what a node computes: the name of a function without its path, the class of a
submodule, and the target of any other node. -/
def shortName (node : Node) (submodules : Forest) : Except Failure String :=
  match node.op with
  | .callFunction function => .ok function.name
  | .callMethod method => .ok method
  | .callModule path => Submodule.className <$> submodules.get path
  | .getAttr path => .ok path
  | .placeholder => .ok node.name
  | .output => .ok "output"

/-- The qualified name of what a node computes. -/
def longName (node : Node) (rules : Rules) (submodules : Forest) : Except Failure String :=
  match node.op with
  | .callFunction function => .ok (rules.displayName function)
  | .callModule path => Submodule.qualifiedClass <$> submodules.get path
  | _ => node.shortName submodules

/-- The value of a call may share storage with its first argument. -/
def isView (node : Node) (rules : Rules) (submodules : Forest) : Except Failure Bool :=
  if node.op.isCall then rules.isViewOp <$> node.shortName submodules else .ok false

/-- The value of a node is a tensor, according to the tracer. -/
def isTensor (node : Node) : Except Failure Bool :=
  ValueInfo.isTensor <$> node.infoFor .type

end Node

namespace Instruction

/-- The call carries a flag that requests work in place. -/
def isFlagged (instruction : Instruction) : Bool :=
  (instruction.kwargs[Rules.inplaceKeyword]?.bind Argument.truth?) == some true

/-- The call is of a function that changes its first argument. -/
def isVariant (instruction : Instruction) (rules : Rules) : Bool :=
  match instruction.op.function? with
  | some function => (rules.pureVariant? function).isSome
  | none => false

/-- The tracer saw the call change an argument. -/
def isMarked (instruction : Instruction) : Bool :=
  match instruction.info with
  | some info => info.isMutation
  | none => false

/-- The node into whose storage a call writes: the one that receives the result, if there is one,
and else the first argument of a call that works in place. -/
def mutatedArgument? (instruction : Instruction) (rules : Rules) : Option NodeId :=
  if instruction.op.isCall then
    match instruction.kwargs[Rules.outKeyword]?.bind Argument.asRef? with
    | some receiver => some receiver
    | none =>
      if instruction.isFlagged || instruction.isVariant rules || instruction.isMarked then
        instruction.firstRef?
      else
        none
  else
    none

end Instruction

end OpGraph
