import OpGraph.Failure

/-!
# Graphs

A graph is a list of nodes in the order of their execution.  Identities count the nodes created so
far and are never used again, so the identity of an erased node stays invalid.  Names are formed
from a base name and the number of earlier uses of that base name.

New nodes are placed immediately before the insertion point while that node is in the graph, and at
the end of the graph otherwise.  `Graph.insertingBefore` moves the insertion point for the extent
of a computation and puts it back afterwards, whatever became of the node that it marked.
-/

namespace OpGraph

/-- A graph of instructions in execution order. -/
structure Graph where
  /-- The nodes in the order of their execution. -/
  nodes : List Node := []
  /-- The number of nodes created so far, erased ones included. -/
  created : Nat := 0
  /-- The node before which new nodes are placed. -/
  insertionPoint : Option NodeId := none
  /-- How often each base name has been used. -/
  nameUses : Std.ExtTreeMap String Nat := ∅
deriving DecidableEq

namespace Graph

/-! ### Views -/

/-- The number of nodes. -/
def size (graph : Graph) : Nat :=
  graph.nodes.length

/-- The identities of the nodes in execution order. -/
def ids (graph : Graph) : List NodeId :=
  graph.nodes.map Node.id

/-- The node with the given identity. -/
def find? (graph : Graph) (id : NodeId) : Option Node :=
  graph.nodes.find? fun node => node.id = id

/-- The node with the given identity, or the failure that it is unknown. -/
def get (graph : Graph) (id : NodeId) : Except Failure Node :=
  match graph.find? id with
  | some node => .ok node
  | none => .error (.unknownNode id)

/-- The identity belongs to a node of the graph. -/
def contains (graph : Graph) (id : NodeId) : Bool :=
  (graph.find? id).isSome

/-- The place of a node in execution order. -/
def position? (graph : Graph) (id : NodeId) : Option Nat :=
  graph.nodes.findIdx? fun node => node.id = id

/-- The identity of the node at a place in execution order. -/
def idAt? (graph : Graph) (index : Nat) : Option NodeId :=
  graph.nodes[index]?.map Node.id

/-- The inputs of the graph. -/
def placeholders (graph : Graph) : List NodeId :=
  (graph.nodes.filter fun node => node.op = .placeholder).map Node.id

/-- The first output of the graph. -/
def output? (graph : Graph) : Option NodeId :=
  (graph.nodes.find? fun node => node.op = .output).map Node.id

/-- The nodes that read the value of the given one, in execution order. -/
def users (graph : Graph) (id : NodeId) : List NodeId :=
  (graph.nodes.filter fun node => node.reads id).map Node.id

/-- The name of a node, or its shown identity if there is no such node. -/
def nameOf (graph : Graph) (id : NodeId) : String :=
  match graph.find? id with
  | some node => node.name
  | none => id.shown

/-- The shape recorded for the value of a node. -/
def shapeOf? (graph : Graph) (id : NodeId) : Option (List Nat) := do
  let node ← graph.find? id
  let info ← node.info
  info.shape

/-! ### Creation -/

/-- The identity of the next node to be created. -/
def nextId (graph : Graph) : NodeId :=
  ⟨graph.created⟩

/-- The name of the next node whose name is formed from `base`. -/
def freshName (graph : Graph) (base : String) : String :=
  match graph.nameUses.getD base 0 with
  | 0 => base
  | count + 1 => base ++ "_" ++ toString (count + 1)

/-- Place a node before the node with identity `anchor`, or at the end. -/
def placeBefore (anchor : NodeId) (new : Node) : List Node → List Node
  | [] => [new]
  | node :: rest =>
    if node.id = anchor then new :: node :: rest else node :: placeBefore anchor new rest

/-- Place a node at the insertion point. -/
def place (graph : Graph) (new : Node) : List Node :=
  match graph.insertionPoint with
  | some anchor => placeBefore anchor new graph.nodes
  | none => graph.nodes ++ [new]

/-- The base name of a new node: the hint if there is one, else that of the operation. -/
def baseName (op : Op) (hint : Option String) : String :=
  match hint with
  | some name => Dotted.flatten name
  | none => op.baseName

/-- Create a node at the insertion point; its identity is `graph.nextId`. -/
def emit (graph : Graph) (instruction : Instruction) (hint : Option String) : Graph :=
  let base := baseName instruction.op hint
  let node : Node :=
    { instruction with id := graph.nextId, name := graph.freshName base }
  { graph with
    nodes := graph.place node
    created := graph.created + 1
    nameUses := graph.nameUses.insert base (graph.nameUses.getD base 0 + 1) }

/-- Create a copy of a node, usually of another graph, with its references looked up. -/
def emitCopy (graph : Graph) (node : Node) (image : NodeId → Except Failure Arg) :
    Except Failure Graph := do
  let instruction ← node.toInstruction.traverse image
  return graph.emit instruction node.copyHint

/-- Run a computation that places new nodes immediately before `anchor`. -/
def insertingBefore {α : Type} (graph : Graph) (anchor : NodeId)
    (body : Graph → Graph × α) : Graph × α :=
  let (changed, result) := body { graph with insertionPoint := some anchor }
  ({ changed with insertionPoint := graph.insertionPoint }, result)

/-- Create a node immediately before `anchor`. -/
def emitBefore (graph : Graph) (anchor : NodeId) (instruction : Instruction) : Graph :=
  (graph.insertingBefore anchor fun inner => (inner.emit instruction none, ())).1

/-! ### Change -/

/-- Change the node with the given identity. -/
def modify (graph : Graph) (id : NodeId) (change : Node → Node) : Except Failure Graph :=
  if graph.contains id then
    .ok { graph with
      nodes := graph.nodes.map fun node =>
        if node.id = id then { change node with id := id } else node }
  else
    .error (.unknownNode id)

/-- Let every reader of `old` read `new` instead. -/
def redirect (graph : Graph) (old : NodeId) (new : Arg) : Graph :=
  { graph with
    nodes := graph.nodes.map fun node =>
      { node with toInstruction := node.toInstruction.bind (Argument.single old new) } }

/-- Remove a node without regard to its readers. -/
def drop (graph : Graph) (id : NodeId) : Graph :=
  { graph with
    nodes := graph.nodes.filter fun node => node.id ≠ id
    insertionPoint := if graph.insertionPoint = some id then none else graph.insertionPoint }

/-- Remove a node that no node reads. -/
def erase (graph : Graph) (id : NodeId) : Except Failure Graph := do
  let node ← graph.get id
  match (graph.users id).length with
  | 0 => return graph.drop id
  | users + 1 => throw (.nodeHasUsers node.name (users + 1))

/-- Compute a value in place of the node `old`: the new node stands where `old` stood, and the
readers of `old` read it instead. -/
def supersede (graph : Graph) (old : NodeId) (instruction : Instruction) : Graph :=
  ((graph.emitBefore old instruction).redirect old (.ref graph.nextId)).drop old

end Graph

end OpGraph
