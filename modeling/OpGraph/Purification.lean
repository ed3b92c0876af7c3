import OpGraph.Naming
import OpGraph.Report
import OpGraph.Tally
import OpGraph.Tracing

/-!
# Purification

A graph is copied node by node into a new one, in which calls that change an argument are replaced
by calls of the pure function behind them.  An environment holds the current value of every node
of the source.  After a call that changed an argument, the changed node is bound to the result of
the pure call, so that later readers see the value after the change.

Reads of a recorded attribute become literals.  Changes that cannot be removed, values that are no
tensors and other attribute reads are counted.
-/

namespace OpGraph

namespace InfoField

/-- The field that holds the value of an attribute. -/
def ofAttribute? (attributeName : String) : Option InfoField :=
  if attributeName = "dtype" then some dtype
  else if attributeName = "device" then some device
  else none

end InfoField

/-- The pure form of a call. -/
structure PureForm where
  /-- The operation of the new call. -/
  op : Op
  /-- A keyword argument that the new call does without. -/
  dropped : Option String := none
  /-- The nodes whose values the call changed. -/
  changed : List NodeId := []
  /-- The new call changes nothing. -/
  isPure : Bool := true
  /-- What there is to count. -/
  counted : List TallyKey := []

namespace PureForm

/-- A division with an operand that is no value of a node. -/
def isScalarDivision (function : FunctionPath) (args : List Arg) : Bool :=
  function = .trueDivision && !args.all fun argument => argument.asRef?.isSome

/-- The operation of a call that is not known to change its first argument: an operator becomes the
tensor function behind it, except that a division by a scalar stays as it is and is counted. -/
def ofOperator (rules : Rules) (submodules : Forest) (node : Node) : Report PureForm :=
  match node.op with
  | .callFunction function =>
    match rules.operatorFunctions[function]? with
    | some replacement =>
      if isScalarDivision function node.args then do
        .note (.divisionKept node.name function)
        let name ← Report.ofExcept (node.longName rules submodules)
        return { op := node.op, counted := [⟨.unconvertedDivision, name⟩] }
      else
        return { op := .callFunction replacement }
    | none => return { op := node.op }
  | _ => return { op := node.op }

/-- The form of a call whose change of a value, if it makes one, cannot be removed. -/
def ofRemaining (rules : Rules) (submodules : Forest) (node : Node) (info : ValueInfo) :
    Report PureForm := do
  let form ← ofOperator rules submodules node
  if info.isMutation then
    let name ← Report.ofExcept (node.longName rules submodules)
    return { form with isPure := false, counted := form.counted ++ [⟨.mutation, name⟩] }
  else
    return form

/-- The pure form of a call of a tensor that changes no input of the graph. -/
def ofTensor (rules : Rules) (submodules : Forest) (node : Node) (info : ValueInfo) :
    Report PureForm :=
  match node.kwargs[Rules.inplaceKeyword]?, node.kwargs[Rules.outKeyword]? with
  | some flag, _ =>
    return {
      op := node.op
      dropped := some Rules.inplaceKeyword
      changed := if flag.truth? = some true then node.firstRef?.toList else [] }
  | none, some receiver =>
    return {
      op := node.op
      dropped := some Rules.outKeyword
      changed := receiver.asRef?.toList }
  | none, none =>
    match node.op.function?.bind rules.pureVariant? with
    | some function =>
      return { op := .callFunction function, changed := node.firstRef?.toList }
    | none => ofRemaining rules submodules node info

/-- The form of any other call, which stays as it is. -/
def ofOther (rules : Rules) (submodules : Forest) (node : Node) (info : ValueInfo) :
    Report PureForm := do
  if info.isInputMutation then
    let name ← Report.ofExcept (node.longName rules submodules)
    return { op := node.op, isPure := false, counted := [⟨.inputMutation, name⟩] }
  else
    return { op := node.op, isPure := false }

/-- The pure form of a call. -/
def ofCall (rules : Rules) (submodules : Forest) (node : Node) (info : ValueInfo) :
    Report PureForm :=
  if info.isTensor && !info.isInputMutation then ofTensor rules submodules node info
  else ofOther rules submodules node info

/-- The form differs from the call in its operation or its keyword arguments. -/
def differs (form : PureForm) (node : Node) : Bool :=
  form.op ≠ node.op || form.dropped.isSome

/-- The keyword arguments that the new call keeps. -/
def keptKwargs (form : PureForm) (kwargs : Kwargs NodeId) : Kwargs NodeId :=
  match form.dropped with
  | some keyword => kwargs.erase keyword
  | none => kwargs

end PureForm

/-- What becomes of the read of an attribute. -/
structure AttributeRead where
  /-- The literal in place of the read, if its value is recorded. -/
  value : Option Arg := none
  /-- What there is to count. -/
  counted : List TallyKey := []

namespace AttributeRead

/-- Replace the read of the element type or the device of a node by the recorded value. -/
def ofCall (graph : Graph) (node : Node) : Report AttributeRead :=
  match node.args[1]?.bind Argument.asText? with
  | none => return {}
  | some attributeName =>
    match InfoField.ofAttribute? attributeName, node.firstRef? with
    | some field, some target => do
      let source ← Report.ofExcept (graph.get target)
      let info ← Report.ofExcept (source.infoFor field)
      match field.read info with
      | some value =>
        .note (.attributeFolded node.name field.word source.name value)
        return {
          value := some (.literal (.text value))
          counted := [⟨.resolvedRead, attributeName⟩] }
      | none => .fail (.missingInfo source.name field)
    | _, _ => return { counted := [⟨.attributeRead, attributeName⟩] }

end AttributeRead

/-- A purification in progress. -/
structure Purifier where
  /-- The new graph. -/
  graph : Graph := {}
  /-- The current values of the visited nodes. -/
  env : Env := ∅
  /-- What has been counted. -/
  tally : Tally := ∅

namespace Purifier

/-- Count some keys. -/
def count (purifier : Purifier) (keys : List TallyKey) : Purifier :=
  { purifier with tally := keys.foldl (fun tally key => tally.add key 1) purifier.tally }

/-- Give a visited node its value. -/
def bind (purifier : Purifier) (id : NodeId) (value : Arg) : Purifier :=
  { purifier with env := purifier.env.insert id value }

/-- Bind a changed node to the value after the change, if the node has been visited. -/
def rebind (name result : String) (value : Arg) (purifier : Purifier) (target : NodeId) :
    Report Purifier :=
  if purifier.env.contains target then do
    .note (.rebound name target result)
    return purifier.bind target value
  else
    return purifier

/-- Copy a node that is no call. -/
def copy (purifier : Purifier) (node : Node) : Except Failure Purifier := do
  let graph ← purifier.graph.emitCopy node purifier.env.value
  return { purifier with graph }.bind node.id (.ref purifier.graph.nextId)

/-- Create the pure form of a call and bind the nodes that the call changed to its value. -/
def emitCall (purifier : Purifier) (node : Node) (info : ValueInfo) (form : PureForm) :
    Report Purifier := do
  let args ← Report.ofExcept (Argument.traverseAll purifier.env.value node.args)
  let kwargs ← Report.ofExcept
    ((form.keptKwargs node.kwargs).traverse purifier.env.value)
  if form.differs node then
    .note (.purified node.name node.target form.op)
  let instruction : Instruction :=
    { op := form.op
      args
      kwargs
      info := some (if form.isPure then { info with isMutation := false } else info) }
  let result : Arg := .ref purifier.graph.nextId
  let name := purifier.graph.freshName form.op.baseName
  let rebound ← form.changed.foldlM (rebind node.name name result)
    { purifier with graph := purifier.graph.emit instruction none }
  return rebound.bind node.id result

/-- Visit a call. -/
def visitCall (rules : Rules) (program : Program) (purifier : Purifier) (node : Node) :
    Report Purifier := do
  let info ← Report.ofExcept (node.infoFor .type)
  let form ← PureForm.ofCall rules program.submodules node info
  let purifier := purifier.count form.counted
  let attributeRead ←
    if form.op = .callFunction .getAttribute then AttributeRead.ofCall program.graph node
    else pure {}
  let purifier := purifier.count attributeRead.counted
  match attributeRead.value with
  | some value => return purifier.bind node.id value
  | none =>
    if info.isTensor then
      purifier.emitCall node info form
    else
      let name ← Report.ofExcept (node.longName rules program.submodules)
      (purifier.count [⟨.nontensor, name⟩]).emitCall node info form

/-- Visit a node. -/
def visit (rules : Rules) (program : Program) (purifier : Purifier) (node : Node) :
    Report Purifier :=
  if node.op.isCall then purifier.visitCall rules program node
  else .ofExcept (purifier.copy node)

end Purifier

/-- The pure form of the graph of a program, and what was counted on the way. -/
def purify (rules : Rules) (program : Program) : Report (Graph × Tally) := do
  let purifier ← program.graph.nodes.foldlM (Purifier.visit rules program) {}
  let remaining := purifier.tally.total .mutation + purifier.tally.total .inputMutation
  .note (.purificationDone program.graph.size purifier.graph.size remaining)
  return (purifier.graph, purifier.tally)

end OpGraph
