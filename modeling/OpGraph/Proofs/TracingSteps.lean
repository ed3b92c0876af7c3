import OpGraph.Graph.ModuleCalls
import OpGraph.Tracing
import OpGraph.Proofs.Validity

/-!
# The steps of the tracer

A node is recorded by reading its arguments through an environment and putting attribute paths under
a scope (`Node.Relocated`).  A visit records a node, binds an input to an argument, enters the body
of a child or leaves a body (`Tracing.Machine.Visit`).
-/

namespace OpGraph

namespace Env

/-- Every value of the environment refers to known nodes only. -/
def Within (env : Env) (known : Set NodeId) : Prop :=
  ∀ (id : NodeId) (value : Arg), env[id]? = some value → ∀ target ∈ value.refs, target ∈ known

theorem value_eq_ok_iff {env : Env} {id : NodeId} {value : Arg} :
    env.value id = .ok value ↔ env[id]? = some value := by
  unfold Env.value
  split
  · next found => simp [found]
  · next none => simp [none]

theorem getElem?_insert_of_ne {id other : NodeId} (different : other ≠ id) (env : Env)
    (value : Arg) :
    (env.insert id value)[other]? = env[other]? := by
  rw [Std.ExtTreeMap.getElem?_insert, if_neg]
  exact fun equal => different (Std.LawfulEqOrd.eq_of_compare equal).symm

theorem within_empty (known : Set NodeId) : Within ∅ known := by
  intro id value found
  rw [Std.ExtTreeMap.getElem?_empty] at found
  cases found

/-- Bindings of known nodes can be added, while more nodes become known. -/
theorem Within.insert {env : Env} {known larger : Set NodeId} {value : Arg}
    (within : env.Within known) (subset : known ⊆ larger)
    (inside : ∀ target ∈ value.refs, target ∈ larger) (id : NodeId) :
    Within (env.insert id value) larger := by
  intro other bound found target isRef
  rw [Std.ExtTreeMap.getElem?_insert] at found
  split at found
  · obtain rfl := Option.some.inj found
    exact inside target isRef
  · exact subset (within other bound found target isRef)

theorem Within.refs_traverse {env : Env} {known : Set NodeId} {argument result : Arg}
    (within : env.Within known) (success : argument.traverse env.value = .ok result) :
    ∀ target ∈ result.refs, target ∈ known := by
  obtain ⟨bound, rfl⟩ := Argument.traverse_eq_ok_iff.mp success
  intro target isRef
  obtain ⟨source, isSource, isTarget⟩ := Argument.mem_refs_bind.mp isRef
  obtain ⟨value, found⟩ := bound source isSource
  rw [Argument.total_of_eq_ok found] at isTarget
  exact within source value (value_eq_ok_iff.mp found) target isTarget

theorem Within.inputs_traverse {env : Env} {known : Set NodeId} {instruction result : Instruction}
    (within : env.Within known) (success : instruction.traverse env.value = .ok result) :
    ∀ input ∈ result.inputs, input ∈ known := by
  obtain ⟨bound, rfl⟩ := Instruction.traverse_eq_ok_iff.mp success
  intro input isInput
  obtain ⟨source, isSource, isTarget⟩ := Instruction.mem_inputs_bind.mp isInput
  obtain ⟨value, found⟩ := bound source isSource
  rw [Argument.total_of_eq_ok found] at isTarget
  exact within source value (value_eq_ok_iff.mp found) input isTarget

end Env

namespace Node

/-- The instruction that a node becomes when its arguments are read through an environment and
attribute paths are put under a scope. -/
inductive Relocated (scope : String) (env : Env) (node : Node) : Instruction → Prop where
  /-- An attribute is read under the scope. -/
  | read {path : String} (isAttribute : node.op = .getAttr path) :
      Relocated scope env node { op := .getAttr (scope ++ path), info := node.info }
  /-- A call is made with the arguments that the environment holds. -/
  | call {instruction : Instruction} (isCall : node.op.isCall = true)
      (found : node.toInstruction.traverse env.value = .ok instruction) :
      Relocated scope env node instruction

theorem Relocated.isInner {scope : String} {env : Env} {node : Node} {instruction : Instruction}
    (relocated : node.Relocated scope env instruction) : instruction.op.IsInner := by
  cases relocated with
  | read => exact Op.isInner_getAttr _
  | call isCall found =>
      rw [Instruction.op_traverse found]
      exact Op.isInner_of_isCall isCall

theorem Relocated.notOutput {scope : String} {env : Env} {node : Node} {instruction : Instruction}
    (relocated : node.Relocated scope env instruction) : node.op ≠ .output := by
  cases relocated with
  | read isAttribute =>
      rw [isAttribute]
      exact (Op.isInner_getAttr _).2
  | call isCall => exact (Op.isInner_of_isCall isCall).2

theorem Relocated.inputs_known {scope : String} {env : Env} {node : Node}
    {instruction : Instruction} {known : Set NodeId}
    (relocated : node.Relocated scope env instruction) (within : env.Within known) :
    ∀ input ∈ instruction.inputs, input ∈ known := by
  cases relocated with
  | read =>
      intro input isInput
      rcases Instruction.mem_inputs.mp isInput with inArgs | inKwargs
      · exact absurd inArgs List.not_mem_nil
      · obtain ⟨keyword, argument, found, -⟩ := Kwargs.mem_refs.mp inKwargs
        rw [Std.ExtTreeMap.getElem?_empty] at found
        cases found
  | call _ found => exact within.inputs_traverse found

end Node

namespace Tracing

namespace Frame

theorem enter_eq_ok {owner : Submodule} {scope : String} {inputs : Option CallInputs}
    {frame : Frame}
    (entering : enter owner scope inputs = .ok frame) :
    ∃ body, owner.body = some body ∧ frame = ⟨owner, body, body.nodes, scope, ∅, inputs⟩ := by
  unfold enter at entering
  split at entering
  · next body hasBody => exact ⟨body, hasBody, (Except.ok.inj entering).symm⟩
  · cases entering

end Frame

namespace Machine

/-- What a visit of the next node does when every child is flattened. -/
inductive Visit (machine : Machine) (rest : List Node) (node : Node) : Progress → Prop where
  /-- An input of the outermost body is recorded. -/
  | input {instruction : Instruction} (isInput : node.op = .placeholder)
      (outermost : machine.frame.inputs = none) (isCopy : instruction.op = .placeholder) :
      Visit machine rest node (.running (machine.record rest node.id instruction node.copyHint))
  /-- An input of a called body is bound to an argument of the call. -/
  | argument {inputs left : CallInputs} {value : Arg} (isInput : node.op = .placeholder)
      (called : machine.frame.inputs = some inputs)
      (taken : machine.frame.takeInput inputs node.name = .ok (value, left)) :
      Visit machine rest node (.running { machine with
        frame := { machine.frame.advance rest node.id value with inputs := some left } })
  /-- An attribute read and a call of a function or a method are recorded. -/
  | recorded {instruction : Instruction} {hint : Option String}
      (notCall : node.op.isModuleCall = false)
      (relocated : node.Relocated machine.frame.scope machine.frame.env instruction) :
      Visit machine rest node (.running (machine.record rest node.id instruction hint))
  /-- The body of a child is entered. -/
  | entered {target : String} {child : Submodule} {instruction : Instruction} {callee : Frame}
      {supplied : Nat} (isCall : node.op = .callModule target)
      (found : machine.frame.owner.descendant? target = some child)
      (read : node.toInstruction.traverse machine.frame.env.value = .ok instruction)
      (entering : Frame.enter child (machine.frame.scope ++ target ++ ".")
        (some ⟨instruction.args, instruction.kwargs, supplied⟩) = .ok callee) :
      Visit machine rest node (.running { machine with
        frame := callee
        callers := (node.id, { machine.frame with pending := rest }) :: machine.callers })
  /-- The first output ends a body. -/
  | left {value : Arg} (isOutput : node.op = .output)
      (found : (node.args.headD (.tuple [])).traverse machine.frame.env.value = .ok value) :
      Visit machine rest node (machine.leave value)

theorem visit_of_visitInput {machine next : Machine} {rest : List Node} {node : Node}
    (isInput : node.op = .placeholder) (visited : machine.visitInput rest node = .ok next) :
    Visit machine rest node (.running next) := by
  unfold visitInput at visited
  dsimp only at visited
  split at visited
  · split at visited
    · next outermost =>
      obtain ⟨instruction, found, same⟩ := Outcome.bind_eq_ok.mp visited
      obtain rfl := Except.ok.inj same
      exact .input isInput outermost ((Instruction.op_traverse found).trans isInput)
    · next inputs called =>
      obtain ⟨⟨value, left⟩, taken, same⟩ := Outcome.bind_eq_ok.mp visited
      obtain rfl := Except.ok.inj same
      exact .argument isInput called taken
  · cases visited

theorem visit_of_visitCall {machine next : Machine} {rest : List Node} {node : Node}
    {target : String} (isCall : node.op = .callModule target)
    (visited : machine.visitCall flattenAll rest node target = .ok next) :
    Visit machine rest node (.running next) := by
  unfold visitCall at visited
  dsimp only at visited
  split at visited
  · cases visited
  · next child found =>
    obtain ⟨instruction, read, visited⟩ := Outcome.bind_eq_ok.mp visited
    obtain ⟨callee, entering, same⟩ := Outcome.bind_eq_ok.mp visited
    obtain rfl := Except.ok.inj same
    exact .entered isCall found read entering

theorem visit_of_recordCopy {machine next : Machine} {rest : List Node} {node : Node}
    (isCall : node.op.isCall = true) (notCall : node.op.isModuleCall = false)
    (recorded : machine.recordCopy rest node = .ok next) :
    Visit machine rest node (.running next) := by
  obtain ⟨instruction, found, same⟩ := Outcome.bind_eq_ok.mp recorded
  obtain rfl := Except.ok.inj same
  exact .recorded notCall (.call isCall found)

theorem visit_of_eq_ok {machine : Machine} {rest : List Node} {node : Node} {progress : Progress}
    (visited : machine.visit flattenAll rest node = .ok progress) :
    Visit machine rest node progress := by
  unfold visit at visited
  split at visited
  · next isInput =>
    obtain ⟨next, found, rfl⟩ := Outcome.map_eq_ok.mp visited
    exact visit_of_visitInput isInput found
  · next isAttribute =>
    obtain rfl := Except.ok.inj visited
    exact .recorded (by rw [isAttribute]; rfl) (.read isAttribute)
  · next isFunction =>
    obtain ⟨next, found, rfl⟩ := Outcome.map_eq_ok.mp visited
    exact visit_of_recordCopy (by rw [isFunction]; rfl) (by rw [isFunction]; rfl) found
  · next isMethod =>
    obtain ⟨next, found, rfl⟩ := Outcome.map_eq_ok.mp visited
    exact visit_of_recordCopy (by rw [isMethod]; rfl) (by rw [isMethod]; rfl) found
  · next isCall =>
    obtain ⟨next, found, rfl⟩ := Outcome.map_eq_ok.mp visited
    exact visit_of_visitCall isCall found
  · next isOutput =>
    split at visited
    · next noArgs =>
      obtain rfl := Except.ok.inj visited
      exact .left isOutput (by rw [noArgs]; rfl)
    · next first others args =>
      obtain ⟨value, found, rfl⟩ := Outcome.map_eq_ok.mp visited
      exact .left isOutput (by rw [args]; exact found)

theorem outcome_run (leaf : LeafPolicy) (machine : Machine) :
    (machine.run leaf).outcome = (machine.step leaf).outcome >>= fun progress =>
      match progress with
      | .finished graph => .ok graph
      | .running next => (next.run leaf).outcome := by
  rw [run]
  dsimp only
  split
  · next failure => rw [failure]; rfl
  · next success => rw [success]; rfl
  · next success => rw [success]; rfl

theorem visit_of_step {machine : Machine} {progress : Progress}
    (stepped : (machine.step flattenAll).outcome = .ok progress) :
    ∃ node rest, machine.frame.pending = node :: rest ∧ Visit machine rest node progress := by
  unfold step at stepped
  split at stepped
  · cases stepped
  · next node rest pending =>
    simp only [Report.outcome_bind, Report.outcome_note, Report.outcome_ofExcept] at stepped
    exact ⟨node, rest, pending, visit_of_eq_ok stepped⟩

/-- What holds of a machine about to finish, and of a machine if it holds of the next one, holds of
every machine that finishes. -/
theorem run_induction {motive : Machine → Prop} {final : Graph}
    (finished : ∀ machine node rest, machine.frame.pending = node :: rest →
      Visit machine rest node (.finished final) → motive machine)
    (running : ∀ machine next node rest, machine.frame.pending = node :: rest →
      Visit machine rest node (.running next) → motive next → motive machine)
    {machine : Machine} (completed : (machine.run flattenAll).outcome = .ok final) :
    motive machine := by
  induction machine using Machine.run.induct flattenAll with
  | case1 machine _ cause failure =>
      rw [outcome_run, failure] at completed
      cases completed
  | case2 machine _ graph success =>
      rw [outcome_run, success] at completed
      obtain rfl := Except.ok.inj completed
      obtain ⟨node, rest, pending, visit⟩ := visit_of_step success
      exact finished machine node rest pending visit
  | case3 machine _ next success ih =>
      rw [outcome_run, success] at completed
      obtain ⟨node, rest, pending, visit⟩ := visit_of_step success
      exact running machine next node rest pending visit (ih completed)

/-- The graph that a machine records in a number of steps. -/
def runFor (leaf : LeafPolicy) : Nat → Machine → Option Graph
  | 0, _ => none
  | steps + 1, machine =>
    match (machine.step leaf).outcome with
    | .error _ => none
    | .ok (.finished graph) => some graph
    | .ok (.running next) => runFor leaf steps next

theorem outcome_run_of_runFor {leaf : LeafPolicy} {steps : Nat} {machine : Machine} {graph : Graph}
    (found : runFor leaf steps machine = some graph) : (machine.run leaf).outcome = .ok graph := by
  induction steps generalizing machine with
  | zero => cases found
  | succ steps ih =>
      rw [runFor] at found
      rw [outcome_run]
      cases stepped : (machine.step leaf).outcome with
      | error cause =>
          rw [stepped] at found
          cases found
      | ok progress =>
          rw [stepped] at found
          cases progress with
          | finished other => exact congrArg Except.ok (Option.some.inj found)
          | running next => exact ih found

end Machine

end Tracing

/-- Only a submodule with a body can be traced. -/
theorem exists_body_of_trace {submodule : Submodule} {traced : Graph}
    (success : (trace flattenAll submodule).outcome = .ok traced) :
    ∃ body, submodule.body = some body := by
  simp only [trace, Report.outcome_bind, Report.outcome_ofExcept] at success
  obtain ⟨frame, entering, -⟩ := Outcome.bind_eq_ok.mp success
  obtain ⟨body, hasBody, -⟩ := Tracing.Frame.enter_eq_ok entering
  exact ⟨body, hasBody⟩

/-- The trace of a submodule in a number of steps. -/
def traceFor (steps : Nat) (submodule : Submodule) : Option Graph :=
  match Tracing.Frame.enter submodule "" none with
  | .error _ => none
  | .ok frame => Tracing.Machine.runFor flattenAll steps { graph := {}, frame, callers := [] }

theorem outcome_trace_of_traceFor {steps : Nat} {submodule : Submodule} {graph : Graph}
    (found : traceFor steps submodule = some graph) :
    (trace flattenAll submodule).outcome = .ok graph := by
  unfold traceFor at found
  split at found
  · cases found
  · next frame entering =>
    simp only [trace, Report.outcome_bind, Report.outcome_ofExcept]
    exact Outcome.bind_eq_ok.mpr ⟨frame, entering, Tracing.Machine.outcome_run_of_runFor found⟩

end OpGraph
