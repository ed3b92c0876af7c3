import OpGraph.Node

/-!
# Events

What happens while a graph is traced or transformed, for a reader who wants to follow it.  Every
event has a level and a wording.
-/

namespace OpGraph

/-- How much attention an event deserves, from the most to the least. -/
inductive Level where
  /-- Something failed. -/
  | error
  /-- Something was left undone. -/
  | warning
  /-- A transformation began or ended. -/
  | info
  /-- A node was changed. -/
  | debug
  /-- A node was visited. -/
  | trace
deriving DecidableEq, Repr

namespace Level

/-- The place of a level, the most severe one first. -/
def rank : Level → Nat
  | error => 0
  | warning => 1
  | info => 2
  | debug => 3
  | trace => 4

/-- The word before an event of this level. -/
def word : Level → String
  | error => "ERROR"
  | warning => "WARN"
  | info => "INFO"
  | debug => "DEBUG"
  | trace => "TRACE"

end Level

/-- Something that happened while a graph was traced or transformed. -/
inductive Event where
  /-- The tracer came to a node. -/
  | visited (op : Op) (node : String)
  /-- A node of an expanded body was copied into the calling graph. -/
  | inlined (node copy : String)
  /-- The expansion of a call failed. -/
  | expansionFailed (className : String)
  /-- Normalization began. -/
  | normalizing (nodes : Nat)
  /-- A method call became a function call. -/
  | methodReplaced (node method : String) (function : FunctionPath)
  /-- A function was replaced by its canonical name. -/
  | functionReplaced (node : String) (old new : FunctionPath)
  /-- A submodule call was left as it is. -/
  | keptOpaque (node className : String)
  /-- A submodule call is about to be expanded. -/
  | expanding (node className : String)
  /-- Normalization ended. -/
  | normalized (nodes : Nat)
  /-- A call was changed to write into the storage of its argument. -/
  | storageReused (node : String) (function : FunctionPath) (manner : String)
  /-- Storage reuse ended. -/
  | storageReuseDone (calls : Nat)
  /-- A division by a scalar was left as it is. -/
  | divisionKept (node : String) (function : FunctionPath)
  /-- An attribute read was replaced by its recorded value. -/
  | attributeFolded (node field source value : String)
  /-- A call was replaced by its pure form. -/
  | purified (node target : String) (op : Op)
  /-- Later readers of a changed value read the new value. -/
  | rebound (node : String) (target : NodeId) (value : String)
  /-- Purification ended. -/
  | purificationDone (before after mutations : Nat)
  /-- A pass of a pipeline began. -/
  | passStarted (pass : String) (nodes : Nat)
deriving DecidableEq, Repr

namespace Event

/-- The level of an event. -/
def level : Event → Level
  | visited .. => .trace
  | inlined .. => .trace
  | expansionFailed .. => .error
  | normalizing .. => .info
  | methodReplaced .. => .debug
  | functionReplaced .. => .debug
  | keptOpaque .. => .debug
  | expanding .. => .debug
  | normalized .. => .info
  | storageReused .. => .debug
  | storageReuseDone .. => .info
  | divisionKept .. => .warning
  | attributeFolded .. => .debug
  | purified .. => .debug
  | rebound .. => .debug
  | purificationDone .. => .info
  | passStarted .. => .info

/-- The wording of an event. -/
def message : Event → String
  | visited op node => s!"tracing {op.opcode} {node}"
  | inlined node copy => s!"inlined {node} as {copy}"
  | expansionFailed className => s!"Error while expanding {className}"
  | normalizing nodes => s!"Normalizing graph with {nodes} nodes"
  | methodReplaced node method function =>
    s!"{node}: method '{method}' -> {function.path}"
  | functionReplaced node old new => s!"{node}: {old.path} -> {new.path}"
  | keptOpaque node className => s!"{node}: keeping {className} opaque"
  | expanding node className => s!"{node}: inlining {className}"
  | normalized nodes => s!"Normalization done: {nodes} nodes"
  | storageReused node function manner => s!"{node}: {function.path} -> {manner}"
  | storageReuseDone calls => s!"Inplacifier rewrote {calls} calls"
  | divisionKept node function =>
    s!"{node}: leaving {function.path} with a scalar operand unconverted"
  | attributeFolded node field source value =>
    s!"{node}: folded {field} of {source} to {value}"
  | purified node target op => s!"{node}: purified {target} to {op.opcode}"
  | rebound node target value => s!"{node}: rebinding {target.shown} to {value}"
  | purificationDone before after mutations =>
    s!"Functionalized {before} nodes into {after}, {mutations} mutations left"
  | passStarted pass nodes => s!"Running pass '{pass}' on {nodes} nodes"

/-- The line that reports an event. -/
def line (event : Event) : String :=
  event.level.word ++ " " ++ event.message

end Event

/-- The lines of the events of a level or a more severe one. -/
def journalLines (level : Level) (events : List Event) : List String :=
  (events.filter fun event => event.level.rank ≤ level.rank).map Event.line

end OpGraph
