import OpGraph.Report
import OpGraph.Storage
import OpGraph.Tally

/-!
# Reuse of storage

A call may write its result into the storage of an argument if nothing reads that storage
afterwards.  The nodes are visited from the last to the first, and the storage of everything that
a node reads comes into use, so when a call is visited, exactly the storage that is read later or
observed from outside is in use.

A function of one argument gets a flag or receives the argument as the place of its result.  An
elementwise function of two arguments receives its first one, provided that the shapes are known
and equal and the second argument lies in other storage.

The graph is changed in place, so a walk that fails leaves the changes made so far.
-/

namespace OpGraph

/-- How a call is told to write into the storage of an argument. -/
inductive Manner where
  /-- By a flag. -/
  | flag
  /-- By passing the argument as the place of the result. -/
  | receiver
deriving DecidableEq, Repr

namespace Manner

/-- The word for a manner. -/
def word : Manner → String
  | flag => "inplace"
  | receiver => "out"

end Manner

/-- A way for a call to write into the storage of an argument. -/
structure ReusePlan where
  /-- The keyword arguments of the changed call. -/
  kwargs : Kwargs NodeId
  /-- How the call is told. -/
  manner : Manner
deriving DecidableEq

/-- A call that was changed to write into the storage of an argument. -/
structure ReusedCall where
  /-- The name of the call before the change. -/
  name : String
  /-- The called function. -/
  function : FunctionPath
  /-- How the call is told. -/
  manner : Manner
deriving DecidableEq, Repr

namespace ReusePlan

/-- The only argument of a call, positional or by keyword. -/
def onlyArgument? (args : List Arg) (kwargs : Kwargs NodeId) : Option Arg :=
  match args, kwargs.values with
  | [argument], [] => some argument
  | [], [argument] => some argument
  | _, _ => none

/-- The plan for a call with one argument, if the storage of the argument is free. -/
def unary? (rules : Rules) (accepts : Signatures) (storage : Storage) (function : FunctionPath)
    (argument : Arg) (kwargs : Kwargs NodeId) : Option ReusePlan :=
  match argument with
  | .ref id =>
    if storage.isFree id then
      if rules.flagFunctions.contains function then
        some ⟨kwargs.insert Rules.inplaceKeyword (.literal (.bool true)), .flag⟩
      else if accepts function then
        some ⟨kwargs.insert Rules.outKeyword argument, .receiver⟩
      else none
    else none
  | _ => none

/-- The second operand of an elementwise call permits that the result of a known shape is written
over the first one: it is a literal, or lies in other storage and has the same shape. -/
def admitsSecond (graph : Graph) (storage : Storage) (shape : List Nat) (first : NodeId) :
    Arg → Bool
  | .literal _ => true
  | .ref second => !storage.together first second && graph.shapeOf? second == some shape
  | .tuple _ => false

/-- An elementwise call may write its result over its first operand. -/
def admitsBinary (graph : Graph) (storage : Storage) (info : Option ValueInfo)
    (first second : Arg) : Bool :=
  match first, info.bind ValueInfo.shape with
  | .ref id, some shape =>
    storage.isFree id && graph.shapeOf? id == some shape &&
      admitsSecond graph storage shape id second
  | _, _ => false

/-- The plan for an elementwise call with two operands, if the first one may be overwritten. -/
def binary? (rules : Rules) (accepts : Signatures) (graph : Graph) (storage : Storage)
    (function : FunctionPath) (instruction : Instruction) (kwargs : Kwargs NodeId) :
    Option ReusePlan :=
  match instruction.args with
  | [first, second] =>
    if kwargs.isEmpty && rules.elementwiseFunctions.contains function && accepts function &&
        admitsBinary graph storage instruction.info first second then
      some ⟨kwargs.insert Rules.outKeyword first, .receiver⟩
    else none
  | _ => none

/-- The way in which a function call can write into the storage of an argument, if there is one. -/
def of? (rules : Rules) (accepts : Signatures) (graph : Graph) (storage : Storage)
    (function : FunctionPath) (instruction : Instruction) : Option ReusePlan :=
  if rules.staysPure function then none
  else
    let kwargs := instruction.kwargs.erase Rules.inplaceKeyword
    match onlyArgument? instruction.args kwargs with
    | some argument => unary? rules accepts storage function argument kwargs
    | none => binary? rules accepts graph storage function instruction kwargs

/-- The call changed according to a plan. -/
def apply (plan : ReusePlan) (instruction : Instruction) : Instruction :=
  { instruction with
    kwargs := plan.kwargs
    info := instruction.info.map fun info => { info with isMutation := true } }

end ReusePlan

/-- Put a node in the place of the node `old`: create it, record what is known of its value, let the
readers of `old` read it, and remove `old`.  When one of these fails, those before it have been
done. -/
def Graph.exchange (graph : Graph) (old : NodeId) (instruction : Instruction) :
    Graph × Except Failure Unit :=
  let created := graph.emitBefore old { instruction with info := none }
  match created.modify graph.nextId fun node => { node with info := instruction.info } with
  | .error cause => (created, .error cause)
  | .ok recorded =>
    let redirected := recorded.redirect old (.ref graph.nextId)
    match redirected.erase old with
    | .error cause => (redirected, .error cause)
    | .ok erased => (erased, .ok ())

/-- A reuse of storage in progress. -/
structure ReuseWalk where
  /-- The graph as changed so far. -/
  graph : Graph
  /-- The storage of the values, with what the visited nodes read in use. -/
  storage : Storage
  /-- The calls changed so far. -/
  changes : List ReusedCall

namespace ReuseWalk

/-- What a step leaves of a walk, and whether the walk can go on. -/
abbrev Stride := ReuseWalk × Except Failure Unit

/-- Put a changed call in the place of a call. -/
def rewrite (walk : ReuseWalk) (node : Node) (function : FunctionPath) (plan : ReusePlan) :
    Stride :=
  match walk.graph.exchange node.id (plan.apply node.toInstruction) with
  | (graph, .error cause) => ({ walk with graph }, .error cause)
  | (graph, .ok ()) =>
    ({ walk with graph, changes := walk.changes ++ [⟨node.name, function, plan.manner⟩] }, .ok ())

/-- Change a call if it can write into the storage of an argument. -/
def attempt (rules : Rules) (accepts : Signatures) (walk : ReuseWalk) (node : Node) : Stride :=
  match node.op with
  | .callFunction function =>
    match ReusePlan.of? rules accepts walk.graph walk.storage function node.toInstruction with
    | some plan => walk.rewrite node function plan
    | none => (walk, .ok ())
  | _ => (walk, .ok ())

/-- Visit the node with the given identity. -/
def step (rules : Rules) (accepts : Signatures) (walk : ReuseWalk) (id : NodeId) : Stride :=
  match walk.graph.get id with
  | .error cause => (walk, .error cause)
  | .ok node =>
    match walk.attempt rules accepts node with
    | (left, .error cause) => (left, .error cause)
    | (next, .ok ()) =>
      ({ next with storage := node.inputs.foldl Storage.read next.storage }, .ok ())

/-- Visit nodes until there are none left or a visit fails. -/
def run (rules : Rules) (accepts : Signatures) : List NodeId → ReuseWalk → Stride
  | [], walk => (walk, .ok ())
  | id :: rest, walk =>
    match walk.step rules accepts id with
    | (left, .error cause) => (left, .error cause)
    | (next, .ok ()) => run rules accepts rest next

end ReuseWalk

/-- What a reuse of storage leaves behind. -/
structure Reuse where
  /-- The graph, which is changed in place. -/
  graph : Graph
  /-- The calls that were changed. -/
  calls : List ReusedCall
  /-- Whether all calls were visited. -/
  outcome : Except Failure Unit

/-- Let the calls of a program reuse storage where that is possible. -/
def reuseInPlace (rules : Rules) (accepts : Signatures) (program : Program) : Reuse :=
  match Storage.ofProgram rules program with
  | .error cause => { graph := program.graph, calls := [], outcome := .error cause }
  | .ok storage =>
    let (walk, outcome) := ReuseWalk.run rules accepts program.graph.ids.reverse
      { graph := program.graph, storage, changes := [] }
    { graph := walk.graph, calls := walk.changes, outcome }

/-- The graph of a program whose calls reuse storage, and the changed calls. -/
def reuseStorage (rules : Rules) (accepts : Signatures) (program : Program) :
    Except Failure (Graph × List ReusedCall) :=
  let reuse := reuseInPlace rules accepts program
  (fun _ => (reuse.graph, reuse.calls)) <$> reuse.outcome

namespace ReusedCall

/-- The event of a changed call. -/
def event (call : ReusedCall) : Event :=
  .storageReused call.name call.function call.manner.word

/-- Count changed calls by manner. -/
def countAll (calls : List ReusedCall) (tally : Tally) : Tally :=
  calls.foldl (fun tally call => tally.increment .optimizations call.manner.word) tally

end ReusedCall

end OpGraph
