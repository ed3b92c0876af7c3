import OpGraph.Outcome
import OpGraph.Report
import OpGraph.Submodule

/-!
# Tracing

Tracing records the body of a submodule as a graph of its own.  Calls of children are flattened
into the same graph, except those that a leaf policy keeps as calls; the attribute and submodule
paths of a child are qualified by the path of the child.

The tracer is a machine with a frame for every body that it has entered and not left.  Entering a
child costs one pending node of the caller and adds a frame whose weight is bounded by what that
pending node weighed, so `Machine.weight` falls with every step and `Machine.run` ends.
-/

namespace OpGraph

/-- The values of the nodes visited so far. -/
abbrev Env := Std.ExtTreeMap NodeId Arg

namespace Env

/-- The value of a node, or the failure that it has none. -/
def value (env : Env) (id : NodeId) : Except Failure Arg :=
  match env[id]? with
  | some value => .ok value
  | none => .error (.unknownNode id)

end Env

/-- Says which submodules, with their qualified paths, are kept as calls. -/
abbrev LeafPolicy := Submodule → String → Bool

/-- Keeps no call, so that every child is flattened. -/
def flattenAll : LeafPolicy := fun _ _ => false

namespace Tracing

/-- The arguments of a call that has been entered. -/
structure CallInputs where
  /-- Positional arguments not bound to an input yet. -/
  positional : List Arg
  /-- Keyword arguments. -/
  keyword : Kwargs NodeId
  /-- The number of arguments that the call passed. -/
  supplied : Nat

/-- A body that has been entered and not left. -/
structure Frame where
  /-- The submodule whose body is traced. -/
  owner : Submodule
  /-- The body. -/
  body : Graph
  /-- The nodes of the body not visited yet. -/
  pending : List Node
  /-- What is put before the paths of the body. -/
  scope : String
  /-- The values of the visited nodes in the recorded graph. -/
  env : Env
  /-- The arguments of the call; the outermost body has none, and its inputs are recorded. -/
  inputs : Option CallInputs

namespace Frame

/-- Enter the body of a submodule. -/
def enter (owner : Submodule) (scope : String) (inputs : Option CallInputs) :
    Except Failure Frame :=
  match owner.body with
  | some body => .ok ⟨owner, body, body.nodes, scope, ∅, inputs⟩
  | none => .error (.notTraceable owner.className)

/-- The frame after its next node has been given a value. -/
def advance (frame : Frame) (rest : List Node) (id : NodeId) (value : Arg) : Frame :=
  { frame with pending := rest, env := frame.env.insert id value }

/-- Bind the next input of the body to an argument of the call: to a positional one while there
are any, else to the keyword argument of its name. -/
def takeInput (frame : Frame) (inputs : CallInputs) (name : String) :
    Except Failure (Arg × CallInputs) :=
  match inputs.positional with
  | argument :: later => .ok (argument, { inputs with positional := later })
  | [] =>
    match inputs.keyword[name]? with
    | some argument => .ok (argument, inputs)
    | none =>
      .error (.arityMismatch frame.owner.className frame.body.placeholders.length inputs.supplied)

end Frame

/-- A trace in progress. -/
structure Machine where
  /-- The nodes recorded so far. -/
  graph : Graph
  /-- The innermost body. -/
  frame : Frame
  /-- The bodies around it, each with the call that waits for a value. -/
  callers : List (NodeId × Frame)

/-- The state of a trace after a step. -/
inductive Progress where
  /-- The trace goes on. -/
  | running (machine : Machine)
  /-- The trace is complete. -/
  | finished (graph : Graph)

namespace Machine

/-- Record an instruction as the value of the visited node. -/
def record (machine : Machine) (rest : List Node) (id : NodeId) (instruction : Instruction)
    (hint : Option String) : Machine :=
  { machine with
    graph := machine.graph.emit instruction hint
    frame := machine.frame.advance rest id (.ref machine.graph.nextId) }

/-- Record a copy of the visited node. -/
def recordCopy (machine : Machine) (rest : List Node) (node : Node) : Except Failure Machine := do
  let instruction ← node.toInstruction.traverse machine.frame.env.value
  return machine.record rest node.id instruction node.copyHint

/-- Visit an input of the innermost body. -/
def visitInput (machine : Machine) (rest : List Node) (node : Node) : Except Failure Machine :=
  let frame := machine.frame
  if frame.owner.accepts node then
    match frame.inputs with
    | none => machine.recordCopy rest node
    | some inputs => do
      let (value, left) ← frame.takeInput inputs node.name
      return { machine with
        frame := { frame.advance rest node.id value with inputs := some left } }
  else
    .error (.inputRejected frame.owner.className)

/-- Visit a submodule call: keep it if the policy says so, else enter the submodule. -/
def visitCall (leaf : LeafPolicy) (machine : Machine) (rest : List Node) (node : Node)
    (target : String) : Except Failure Machine :=
  let frame := machine.frame
  let qualified := frame.scope ++ target
  match frame.owner.descendant? target with
  | none => .error (.unknownSubmodule qualified)
  | some child => do
    let instruction ← node.toInstruction.traverse frame.env.value
    if leaf child qualified then
      return machine.record rest node.id { instruction with op := .callModule qualified }
        (some target)
    else
      let inputs : CallInputs :=
        { positional := instruction.args
          keyword := instruction.kwargs
          supplied := instruction.args.length + instruction.kwargs.size }
      let callee ← Frame.enter child (qualified ++ ".") (some inputs)
      return { machine with
        frame := callee
        callers := (node.id, { frame with pending := rest }) :: machine.callers }

/-- Leave the innermost body with a value: hand it to the waiting call, or record the output. -/
def leave (machine : Machine) (value : Arg) : Progress :=
  match machine.callers with
  | [] =>
    .finished (machine.graph.emit { op := .output, args := [value] } none)
  | (site, caller) :: callers =>
    .running
      { graph := machine.graph
        frame := { caller with env := caller.env.insert site value }
        callers }

/-- Visit the next node of the innermost body. -/
def visit (leaf : LeafPolicy) (machine : Machine) (rest : List Node) (node : Node) :
    Except Failure Progress :=
  match node.op with
  | .placeholder => .running <$> machine.visitInput rest node
  | .getAttr path =>
    let instruction : Instruction :=
      { op := .getAttr (machine.frame.scope ++ path), info := node.info }
    .ok (.running (machine.record rest node.id instruction none))
  | .callFunction _ => .running <$> machine.recordCopy rest node
  | .callMethod _ => .running <$> machine.recordCopy rest node
  | .callModule target => .running <$> machine.visitCall leaf rest node target
  | .output =>
    match node.args with
    | [] => .ok (machine.leave (.tuple []))
    | result :: _ => machine.leave <$> result.traverse machine.frame.env.value

/-- Visit the next node, or fail if the innermost body has none. -/
def step (leaf : LeafPolicy) (machine : Machine) : Report Progress :=
  match machine.frame.pending with
  | [] => .fail (.noOutputInTrace machine.frame.owner.className)
  | node :: rest => do
    .note (.visited node.op node.name)
    .ofExcept (machine.visit leaf rest node)

end Machine

end Tracing

/-! ### Termination -/

mutual

/-- A bound on the steps that tracing the body of a submodule takes. -/
def Submodule.weight : Submodule → Nat
  | ⟨_, _, body, children, _, _⟩ =>
    ((body.elim 0 Graph.size) + 1) * (1 + Forest.weight children)
termination_by structural submodule => submodule

/-- A bound on the steps that tracing one of several submodules takes. -/
def Forest.weight : List (String × Submodule) → Nat
  | [] => 0
  | (_, submodule) :: rest => submodule.weight + Forest.weight rest
termination_by structural forest => forest

end

theorem Submodule.weight_eq (submodule : Submodule) :
    submodule.weight =
      ((submodule.body.elim 0 Graph.size) + 1) * (1 + Forest.weight submodule.children) := by
  cases submodule
  rfl

theorem Forest.weight_children_lt (submodule : Submodule) :
    Forest.weight submodule.children < submodule.weight := by
  rw [Submodule.weight_eq, Nat.succ_mul]
  omega

theorem Forest.weight_lookup_le {forest : Forest} {name : String} {submodule : Submodule}
    (found : forest.lookup name = some submodule) : submodule.weight ≤ Forest.weight forest := by
  induction forest with
  | nil => simp at found
  | cons entry rest ih =>
    obtain ⟨other, existing⟩ := entry
    rw [List.lookup_cons] at found
    simp only [Forest.weight]
    split at found
    · obtain rfl := Option.some.inj found
      omega
    · have := ih found
      omega

theorem Forest.weight_resolve_le {forest : Forest} {first : String} {later : List String}
    {submodule : Submodule} (found : forest.resolve? first later = some submodule) :
    submodule.weight ≤ Forest.weight forest := by
  induction later generalizing forest first with
  | nil => exact weight_lookup_le found
  | cons second later ih =>
    simp only [resolve?] at found
    split at found
    · next parent lookup =>
      have below := ih found
      have parentBelow := weight_lookup_le lookup
      have := weight_children_lt parent
      omega
    · simp at found

namespace Tracing

namespace Frame

/-- A bound on the steps that a frame and the bodies entered from it still take. -/
def weight (frame : Frame) : Nat :=
  (frame.pending.length + 1) * (1 + Forest.weight frame.owner.children)

theorem weight_enter {owner : Submodule} {scope : String} {inputs : Option CallInputs}
    {frame : Frame} (entered : enter owner scope inputs = .ok frame) :
    frame.weight = owner.weight := by
  unfold enter at entered
  split at entered
  · next body hasBody =>
    obtain rfl := Except.ok.inj entered
    simp [weight, Submodule.weight_eq, hasBody, Graph.size]
  · simp at entered

theorem weight_pos (frame : Frame) : 0 < frame.weight := by
  unfold weight
  exact Nat.mul_pos (by omega) (by omega)

/-- Passing a node frees at least the weight of every body that could be entered from it. -/
theorem weight_of_pending {frame : Frame} {node : Node} {rest : List Node}
    (pending : frame.pending = node :: rest) :
    frame.weight =
      (rest.length + 1) * (1 + Forest.weight frame.owner.children) +
        (1 + Forest.weight frame.owner.children) := by
  simp only [weight, pending, List.length_cons]
  exact Nat.succ_mul _ _

end Frame

namespace Machine

/-- A bound on the steps that the machine still takes. -/
def weight (machine : Machine) : Nat :=
  machine.frame.weight + (machine.callers.map fun (_, caller) => caller.weight).foldr (· + ·) 0

theorem weight_record {machine : Machine} {node : Node} {rest : List Node}
    (pending : machine.frame.pending = node :: rest) (id : NodeId) (instruction : Instruction)
    (hint : Option String) :
    (machine.record rest id instruction hint).weight < machine.weight := by
  have total := Frame.weight_of_pending pending
  simp only [weight, record, Frame.advance]
  simp only [Frame.weight] at total ⊢
  omega

theorem weight_recordCopy {machine next : Machine} {node : Node} {rest : List Node}
    (pending : machine.frame.pending = node :: rest)
    (copied : machine.recordCopy rest node = .ok next) : next.weight < machine.weight := by
  obtain ⟨instruction, _, same⟩ := Outcome.bind_eq_ok.mp copied
  obtain rfl := Except.ok.inj same
  exact weight_record pending _ _ _

theorem weight_visitInput {machine next : Machine} {node : Node} {rest : List Node}
    (pending : machine.frame.pending = node :: rest)
    (visited : machine.visitInput rest node = .ok next) : next.weight < machine.weight := by
  unfold visitInput at visited
  dsimp only at visited
  split at visited
  · split at visited
    · exact weight_recordCopy pending visited
    · obtain ⟨bound, _, same⟩ := Outcome.bind_eq_ok.mp visited
      obtain rfl := Except.ok.inj same
      have total := Frame.weight_of_pending pending
      simp only [weight, Frame.advance]
      simp only [Frame.weight] at total ⊢
      omega
  · cases visited

theorem weight_visitCall {leaf : LeafPolicy} {machine next : Machine} {node : Node}
    {rest : List Node} {target : String} (pending : machine.frame.pending = node :: rest)
    (visited : machine.visitCall leaf rest node target = .ok next) :
    next.weight < machine.weight := by
  unfold visitCall at visited
  dsimp only at visited
  split at visited
  · cases visited
  · next child found =>
    obtain ⟨instruction, _, outcome⟩ := Outcome.bind_eq_ok.mp visited
    split at outcome
    · obtain rfl := Except.ok.inj outcome
      exact weight_record pending _ _ _
    · obtain ⟨callee, entered, same⟩ := Outcome.bind_eq_ok.mp outcome
      obtain rfl := Except.ok.inj same
      have total := Frame.weight_of_pending pending
      have entering := Frame.weight_enter entered
      have below : child.weight ≤ Forest.weight machine.frame.owner.children :=
        Forest.weight_resolve_le found
      simp only [weight, List.map_cons, List.foldr_cons, entering]
      simp only [Frame.weight] at total ⊢
      omega

theorem weight_leave {machine next : Machine} {value : Arg}
    (left : machine.leave value = .running next) : next.weight < machine.weight := by
  unfold leave at left
  split at left
  · simp at left
  · next callers =>
    obtain rfl := Progress.running.inj left
    have positive := machine.frame.weight_pos
    simp only [weight, callers, List.map_cons, List.foldr_cons]
    simp only [Frame.weight] at positive ⊢
    omega

theorem weight_visit {leaf : LeafPolicy} {machine next : Machine} {node : Node}
    {rest : List Node} (pending : machine.frame.pending = node :: rest)
    (visited : machine.visit leaf rest node = .ok (.running next)) :
    next.weight < machine.weight := by
  have lift {outcome : Except Failure Machine} (below : ∀ next, outcome = .ok next →
      next.weight < machine.weight) (running : Progress.running <$> outcome = .ok (.running next)) :
      next.weight < machine.weight := by
    obtain ⟨found, success, same⟩ := Outcome.map_eq_ok.mp running
    obtain rfl := Progress.running.inj same
    exact below _ success
  unfold visit at visited
  split at visited
  · exact lift (fun _ => weight_visitInput pending) visited
  · obtain rfl := Progress.running.inj (Except.ok.inj visited)
    exact weight_record pending _ _ _
  · exact lift (fun _ => weight_recordCopy pending) visited
  · exact lift (fun _ => weight_recordCopy pending) visited
  · exact lift (fun _ => weight_visitCall pending) visited
  · split at visited
    · exact weight_leave (Except.ok.inj visited)
    · obtain ⟨_, _, left⟩ := Outcome.map_eq_ok.mp visited
      exact weight_leave left

theorem weight_step {leaf : LeafPolicy} {machine next : Machine}
    (stepped : (machine.step leaf).outcome = .ok (.running next)) :
    next.weight < machine.weight := by
  unfold step at stepped
  split at stepped
  · simp at stepped
  · next pending =>
    simp only [Report.outcome_bind, Report.outcome_note, Report.outcome_ofExcept] at stepped
    exact weight_visit pending stepped

/-- Visit nodes until the trace is complete. -/
def run (leaf : LeafPolicy) (machine : Machine) : Report Graph :=
  let stepped := machine.step leaf
  match _outcome : stepped.outcome with
  | .error cause => ⟨stepped.journal, .error cause⟩
  | .ok (.finished graph) => ⟨stepped.journal, .ok graph⟩
  | .ok (.running next) =>
    let later := next.run leaf
    ⟨stepped.journal ++ later.journal, later.outcome⟩
termination_by machine.weight
decreasing_by exact weight_step (by assumption)

end Machine

end Tracing

/-- Record the body of a submodule as a graph, flattening every child that is no leaf. -/
def trace (leaf : LeafPolicy) (submodule : Submodule) : Report Graph := do
  let frame ← Report.ofExcept (Tracing.Frame.enter submodule "" none)
  Tracing.Machine.run leaf { graph := {}, frame, callers := [] }

end OpGraph
