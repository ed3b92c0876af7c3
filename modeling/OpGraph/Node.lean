import OpGraph.Argument
import OpGraph.FunctionPath

/-!
# Nodes

A node of an operator graph is an instruction together with an identity and a name.  The
instruction says what is computed and from which arguments; it may also carry what the tracer
recorded about the computed value.
-/

namespace OpGraph

/-- The identity of a node within its graph. -/
@[ext]
structure NodeId where
  /-- The number of nodes that the graph created before this one. -/
  index : Nat
deriving DecidableEq, Repr

namespace NodeId

instance : Ord NodeId where
  compare := compareOn NodeId.index

instance : Std.TransOrd NodeId :=
  inferInstanceAs (Std.TransCmp (compareOn NodeId.index))

instance : Std.LawfulEqOrd NodeId where
  compare_self {node} := Std.ReflOrd.compare_self (a := node.index)
  eq_of_compare {left right} equal :=
    have indices : compare left.index right.index = .eq := equal
    NodeId.ext (Std.LawfulEqOrd.eq_of_compare indices)

/-- The identity as it is shown where a node has no name. -/
def shown (node : NodeId) : String :=
  "%" ++ toString node.index

end NodeId

/-- An argument of a node of a graph. -/
abbrev Arg := Argument NodeId

/-- What a node computes. -/
inductive Op where
  /-- An external input of the graph. -/
  | placeholder
  /-- Reads a parameter or constant of the enclosing module. -/
  | getAttr (path : String)
  /-- Calls a function. -/
  | callFunction (function : FunctionPath)
  /-- Calls a method of the first argument. -/
  | callMethod (method : String)
  /-- Calls a submodule. -/
  | callModule (path : String)
  /-- Holds the result of the graph. -/
  | output
deriving DecidableEq, Repr

namespace Op

/-- The word for the kind of operation. -/
def opcode : Op → String
  | placeholder => "placeholder"
  | getAttr _ => "get_attr"
  | callFunction _ => "call_function"
  | callMethod _ => "call_method"
  | callModule _ => "call_module"
  | output => "output"

/-- The operation calls a function, a method or a submodule. -/
def isCall : Op → Bool
  | callFunction _ => true
  | callMethod _ => true
  | callModule _ => true
  | _ => false

/-- The operation calls a submodule. -/
def isModuleCall : Op → Bool
  | callModule _ => true
  | _ => false

/-- The called function, if the operation calls one. -/
def function? : Op → Option FunctionPath
  | callFunction function => some function
  | _ => none

/-- The name from which the names of nodes with this operation are formed. -/
def baseName : Op → String
  | placeholder => "input"
  | getAttr path => Dotted.flatten path
  | callFunction function => function.name
  | callMethod method => Dotted.flatten method
  | callModule path => Dotted.flatten path
  | output => "output"

end Op

/-- The kind of value that a node computes. -/
inductive ValueKind where
  /-- A tensor. -/
  | tensor
  /-- A value that is no tensor, by the name of its type. -/
  | other (typeName : String)
deriving DecidableEq, Repr

/-- What the tracer recorded about the value of a node. -/
structure ValueInfo where
  /-- Tensor or not. -/
  kind : ValueKind := .tensor
  /-- The element type. -/
  dtype : Option String := none
  /-- The device that holds the value. -/
  device : Option String := none
  /-- The extent of every dimension. -/
  shape : Option (List Nat) := none
  /-- The call changes one of its arguments. -/
  isMutation : Bool := false
  /-- The changed argument is an input of the graph. -/
  isInputMutation : Bool := false
deriving DecidableEq, Repr

namespace ValueInfo

/-- The value is a tensor. -/
def isTensor (info : ValueInfo) : Bool :=
  info.kind == .tensor

end ValueInfo

/-- A computation: an operation, its arguments, and what is known of its value. -/
structure Instruction where
  /-- What is computed. -/
  op : Op
  /-- Positional arguments. -/
  args : List Arg := []
  /-- Keyword arguments. -/
  kwargs : Kwargs NodeId := ∅
  /-- The record of the tracer, if there is one. -/
  info : Option ValueInfo := none
deriving DecidableEq

namespace Instruction

/-- The nodes whose values are read, positional arguments first, one entry for every read. -/
def inputs (instruction : Instruction) : List NodeId :=
  Argument.refsAll instruction.args ++ instruction.kwargs.refs

/-- The instruction reads the value of the node. -/
def reads (instruction : Instruction) (node : NodeId) : Bool :=
  instruction.inputs.contains node

/-- The first positional argument, if it is a bare reference. -/
def firstRef? (instruction : Instruction) : Option NodeId :=
  instruction.args.head?.bind Argument.asRef?

/-- Substitute an argument for every read value. -/
def bind (image : NodeId → Arg) (instruction : Instruction) : Instruction :=
  { instruction with
    args := Argument.bindAll image instruction.args
    kwargs := instruction.kwargs.bind image }

/-- Substitute an argument for every read value, failing at the first one without an image. -/
def traverse {ε : Type} (image : NodeId → Except ε Arg) (instruction : Instruction) :
    Except ε Instruction := do
  let args ← Argument.traverseAll image instruction.args
  let kwargs ← instruction.kwargs.traverse image
  return { instruction with args, kwargs }

end Instruction

/-- A node of a graph. -/
structure Node extends Instruction where
  /-- The identity within the graph. -/
  id : NodeId
  /-- The name within the graph. -/
  name : String
deriving DecidableEq

namespace Node

/-- The target of the operation in words. -/
def target (node : Node) : String :=
  match node.op with
  | .placeholder => node.name
  | .getAttr path => path
  | .callFunction function => function.path
  | .callMethod method => method
  | .callModule path => path
  | .output => "output"

/-- The name that a copy of the node asks for; only inputs keep theirs. -/
def copyHint (node : Node) : Option String :=
  match node.op with
  | .placeholder => some node.name
  | _ => none

end Node

end OpGraph
