import OpGraph.Node

/-!
# Failures

The causes for which building, validating, tracing or transforming a graph can fail.  The wording
of every cause is in `Failure.message`.
-/

namespace OpGraph

/-- A part of the record of a value that a transformation may need. -/
inductive InfoField where
  /-- The kind of the value. -/
  | type
  /-- The element type. -/
  | dtype
  /-- The device. -/
  | device
deriving DecidableEq, Repr

namespace InfoField

/-- The word for the field. -/
def word : InfoField → String
  | type => "type"
  | dtype => "dtype"
  | device => "device"

/-- The entry of a record under the field; a tensor has no type name. -/
def read : InfoField → ValueInfo → Option String
  | type, info =>
    match info.kind with
    | .tensor => none
    | .other typeName => some typeName
  | dtype, info => info.dtype
  | device, info => info.device

end InfoField

/-- Why an operation on graphs failed. -/
inductive Failure where
  /-- The identity names no node of the graph. -/
  | unknownNode (node : NodeId)
  /-- The node cannot be removed while other nodes read it. -/
  | nodeHasUsers (name : String) (users : Nat)
  /-- An argument refers to a node that is not earlier in the graph. -/
  | forwardReference (node argument : String)
  /-- The graph has no output. -/
  | missingOutput
  /-- The graph has several outputs. -/
  | duplicateOutput
  /-- A node follows the output. -/
  | outputNotLast (output : String)
  /-- An input follows a node that is no input. -/
  | placeholderOutOfOrder (placeholder : String)
  /-- The record of a value lacks a needed part. -/
  | missingInfo (node : String) (field : InfoField)
  /-- The path names no submodule. -/
  | unknownSubmodule (path : String)
  /-- A call to be expanded passes keyword arguments. -/
  | keywordArguments (className : String)
  /-- A call passes too few arguments. -/
  | arityMismatch (className : String) (expected got : Nat)
  /-- The submodule has no body that could be traced. -/
  | notTraceable (className : String)
  /-- The input check of a submodule rejected an input. -/
  | inputRejected (className : String)
  /-- The input check of the submodule is already overridden. -/
  | checkAlreadyOverridden (className : String)
  /-- The traced body ended without an output. -/
  | noOutputInTrace (className : String)
  /-- The expansion of a call failed. -/
  | expansion (className : String) (cause : Failure)
deriving DecidableEq, Repr

namespace Failure

/-- The wording of a cause. -/
def message : Failure → String
  | unknownNode node => s!"node {node.shown} does not exist or has been erased"
  | nodeHasUsers name users =>
    s!"cannot erase node '{name}': still used by {users} node(s)"
  | forwardReference node argument =>
    s!"node '{node}' refers to '{argument}' which does not precede it"
  | missingOutput => "graph has no output node"
  | duplicateOutput => "graph has more than one output node"
  | outputNotLast output => s!"output node '{output}' is not the last node of the graph"
  | placeholderOutOfOrder placeholder =>
    s!"placeholder '{placeholder}' appears after a non-placeholder node"
  | missingInfo node field =>
    s!"node '{node}' is missing required metadata: {field.word}"
  | unknownSubmodule path => s!"no submodule named '{path}'"
  | keywordArguments className =>
    s!"cannot inline a call to '{className}' that passes keyword arguments"
  | arityMismatch className expected got =>
    s!"module '{className}' expects at least {expected} argument(s), got {got}"
  | notTraceable className => s!"module '{className}' is opaque and cannot be traced"
  | inputRejected className =>
    s!"input check of module '{className}' rejected a traced input"
  | checkAlreadyOverridden className =>
    s!"input check of module '{className}' is already overridden"
  | noOutputInTrace className =>
    s!"traced graph of module '{className}' ended without an output node"
  | expansion className cause => s!"error while expanding {className}: {cause.message}"

end Failure

namespace Node

/-- The record of the tracer, or the failure that names the field needed from it. -/
def infoFor (node : Node) (field : InfoField) : Except Failure ValueInfo :=
  match node.info with
  | some info => .ok info
  | none => .error (.missingInfo node.name field)

end Node

end OpGraph
