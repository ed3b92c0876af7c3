import OpGraph.Naming
import Std.Data.ExtTreeSet

/-!
# Storage of values

Every value lies in the storage of some node, its owner.  Views, and calls that write into an
argument, share the storage of that argument; all other calls own the storage of their value.
Storage that can be observed from outside the graph, that of inputs, attributes and outputs, is in
use from the beginning; other storage comes into use by being read.
-/

namespace OpGraph

/-- Which values share storage, and which storage is in use. -/
structure Storage where
  /-- The owner of the storage that holds the value of a node. -/
  owner : Std.ExtTreeMap NodeId NodeId := ∅
  /-- The owners whose storage is in use. -/
  inUse : Std.ExtTreeSet NodeId := ∅

namespace Storage

/-- Let a node own the storage of its value. -/
def allot (storage : Storage) (id : NodeId) : Storage :=
  { storage with owner := storage.owner.insert id id }

/-- Let a node own the storage of its value, which is in use from now on. -/
def pin (storage : Storage) (id : NodeId) : Storage :=
  { storage.allot id with inUse := storage.inUse.insert id }

/-- Let the value of a node lie in the storage of another value, if that is known. -/
def share (storage : Storage) (id target : NodeId) : Storage :=
  match storage.owner[target]? with
  | some owner => { storage with owner := storage.owner.insert id owner }
  | none => storage.allot id

/-- Two values are known to lie in the same storage. -/
def together (storage : Storage) (left right : NodeId) : Bool :=
  match storage.owner[left]?, storage.owner[right]? with
  | some ownerLeft, some ownerRight => ownerLeft = ownerRight
  | _, _ => false

/-- The storage of a value is known and not in use. -/
def isFree (storage : Storage) (id : NodeId) : Bool :=
  match storage.owner[id]? with
  | some owner => !storage.inUse.contains owner
  | none => false

/-- Bring the storage of a value into use. -/
def read (storage : Storage) (id : NodeId) : Storage :=
  match storage.owner[id]? with
  | some owner => { storage with inUse := storage.inUse.insert owner }
  | none => storage

/-- The argument whose storage holds the value of a call. -/
def sharedArgument? (rules : Rules) (submodules : Forest) (node : Node) :
    Except Failure (Option NodeId) := do
  if ← node.isView rules submodules then
    return node.firstRef?
  else
    return node.toInstruction.mutatedArgument? rules

/-- Find the storage of the value of a node. -/
def place (rules : Rules) (submodules : Forest) (storage : Storage) (node : Node) :
    Except Failure Storage := do
  if node.op.isCall then
    match ← sharedArgument? rules submodules node with
    | some target => return storage.share node.id target
    | none => return storage.allot node.id
  else
    return storage.pin node.id

/-- The storage of the values of a program, before any of it has been read. -/
def ofProgram (rules : Rules) (program : Program) : Except Failure Storage :=
  program.graph.nodes.foldlM (place rules program.submodules) {}

end Storage

end OpGraph
