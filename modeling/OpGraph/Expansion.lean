import OpGraph.Graph.ModuleCalls
import OpGraph.Tracing

/-!
# Expansion of submodule calls

A call of a submodule is expanded by tracing the submodule with all its children flattened and
copying the traced nodes into the calling graph at its insertion point.  The arguments of the call
take the place of the inputs of the trace, and attribute paths are put under the path of the
submodule.

The input check of the called submodule is overridden while it is expanded; those of its children
stay in force.  When an expansion fails, the nodes copied so far stay in the graph.
-/

namespace OpGraph

/-- What an expansion leaves behind. -/
structure Expansion where
  /-- The calling graph with the copied nodes. -/
  graph : Graph
  /-- The called submodule. -/
  submodule : Submodule
  /-- The value of the call. -/
  report : Report Arg

namespace Expansion

/-- The call that is being expanded. -/
structure Site where
  /-- The class of the called submodule. -/
  className : String
  /-- What is put before attribute paths. -/
  scope : String
  /-- The number of inputs of the trace. -/
  expected : Nat
  /-- The number of arguments of the call. -/
  supplied : Nat

/-- Copy traced nodes into a graph.  Each input takes the next of the remaining arguments, and `env`
holds the values of the nodes copied before. -/
def copyNodes (site : Site) : List Node → List Arg → Env → Graph → Graph × Report Arg
  | [], _, _, graph => (graph, .fail (.noOutputInTrace site.className))
  | node :: rest, args, env, graph =>
    match node.op with
    | .placeholder =>
      match args with
      | [] => (graph, .fail (.arityMismatch site.className site.expected site.supplied))
      | argument :: later => copyNodes site rest later (env.insert node.id argument) graph
    | .output =>
      match node.args with
      | [] => (graph, .fail .missingOutput)
      | result :: _ => (graph, .ofExcept (result.traverse env.value))
    | .getAttr path =>
      let instruction : Instruction := { op := .getAttr (site.scope ++ path), info := node.info }
      copyNodes site rest args (env.insert node.id (.ref graph.nextId))
        (graph.emit instruction none)
    | _ =>
      match node.toInstruction.traverse env.value with
      | .error cause => (graph, .fail cause)
      | .ok instruction =>
        let name := graph.freshName instruction.op.baseName
        let (copied, report) :=
          copyNodes site rest args (env.insert node.id (.ref graph.nextId))
            (graph.emit instruction none)
        (copied, ⟨.inlined node.name name :: report.journal, report.outcome⟩)

/-- Trace a submodule and copy the trace into a graph; calls with keyword arguments are refused. -/
def splice (scope : String) (graph : Graph) (submodule : Submodule) (args : List Arg)
    (kwargs : Kwargs NodeId) : Graph × Report Arg :=
  if kwargs.isEmpty then
    let traced := trace flattenAll submodule
    match traced.outcome with
    | .error cause => (graph, ⟨traced.journal, .error cause⟩)
    | .ok body =>
      let site : Site := ⟨submodule.className, scope, body.placeholders.length, args.length⟩
      let (copied, report) := copyNodes site body.nodes args ∅ graph
      (copied, ⟨traced.journal ++ report.journal, report.outcome⟩)
  else
    (graph, .fail (.keywordArguments submodule.className))

/-- A report on an expansion, in which a failure is told as a failure to expand. -/
def enclose {α : Type} (className : String) (report : Report α) : Report α :=
  match report.outcome with
  | .ok _ => report
  | .error cause =>
    ⟨report.journal ++ [.expansionFailed className], .error (.expansion className cause)⟩

end Expansion

open Expansion in
/-- Expand a call of a submodule at the insertion point of a graph. -/
def expand (scope : String) (graph : Graph) (submodule : Submodule) (args : List Arg)
    (kwargs : Kwargs NodeId) : Expansion :=
  match submodule.holdCheck with
  | .error cause =>
    { graph, submodule, report := enclose submodule.className (.fail cause) }
  | .ok held =>
    let (changed, report) := splice scope graph held args kwargs
    { graph := changed
      submodule := held.releaseCheck
      report := enclose submodule.className report }

/-! ### A trace with all children flattened calls no submodule -/

namespace Tracing

/-- The graph recorded so far. -/
def Progress.graph : Progress → Graph
  | .running machine => machine.graph
  | .finished graph => graph

namespace Machine

theorem moduleCalls_recordCopy {machine next : Machine} {rest : List Node} {node : Node}
    (isOther : node.op.isModuleCall = false)
    (recorded : machine.recordCopy rest node = .ok next) :
    next.graph.moduleCalls = machine.graph.moduleCalls := by
  obtain ⟨instruction, found, same⟩ := Outcome.bind_eq_ok.mp recorded
  obtain rfl := Except.ok.inj same
  exact Graph.moduleCalls_emit _ _ _ (by rw [Instruction.op_traverse found]; exact isOther)

theorem moduleCalls_visitInput {machine next : Machine} {rest : List Node} {node : Node}
    (isInput : node.op = .placeholder) (visited : machine.visitInput rest node = .ok next) :
    next.graph.moduleCalls = machine.graph.moduleCalls := by
  unfold visitInput at visited
  dsimp only at visited
  split at visited
  · split at visited
    · exact moduleCalls_recordCopy (by rw [isInput]; rfl) visited
    · obtain ⟨_, _, same⟩ := Outcome.bind_eq_ok.mp visited
      obtain rfl := Except.ok.inj same
      rfl
  · cases visited

theorem moduleCalls_visitCall {machine next : Machine} {rest : List Node} {node : Node}
    {target : String} (visited : machine.visitCall flattenAll rest node target = .ok next) :
    next.graph.moduleCalls = machine.graph.moduleCalls := by
  unfold visitCall at visited
  dsimp only at visited
  split at visited
  · cases visited
  · obtain ⟨_, _, entering⟩ := Outcome.bind_eq_ok.mp visited
    obtain ⟨_, _, same⟩ := Outcome.bind_eq_ok.mp entering
    obtain rfl := Except.ok.inj same
    rfl

theorem moduleCalls_leave (machine : Machine) (value : Arg) :
    (machine.leave value).graph.moduleCalls = machine.graph.moduleCalls := by
  unfold leave
  split
  · exact Graph.moduleCalls_emit _ _ _ rfl
  · rfl

theorem moduleCalls_visit {machine : Machine} {rest : List Node} {node : Node}
    {progress : Progress} (visited : machine.visit flattenAll rest node = .ok progress) :
    progress.graph.moduleCalls = machine.graph.moduleCalls := by
  unfold visit at visited
  split at visited
  · next isInput =>
    obtain ⟨_, found, rfl⟩ := Outcome.map_eq_ok.mp visited
    exact moduleCalls_visitInput isInput found
  · obtain rfl := Except.ok.inj visited
    exact Graph.moduleCalls_emit _ _ _ rfl
  · next isFunction =>
    obtain ⟨_, found, rfl⟩ := Outcome.map_eq_ok.mp visited
    exact moduleCalls_recordCopy (by rw [isFunction]; rfl) found
  · next isMethod =>
    obtain ⟨_, found, rfl⟩ := Outcome.map_eq_ok.mp visited
    exact moduleCalls_recordCopy (by rw [isMethod]; rfl) found
  · obtain ⟨_, found, rfl⟩ := Outcome.map_eq_ok.mp visited
    exact moduleCalls_visitCall found
  · split at visited
    · obtain rfl := Except.ok.inj visited
      exact moduleCalls_leave _ _
    · obtain ⟨_, _, rfl⟩ := Outcome.map_eq_ok.mp visited
      exact moduleCalls_leave _ _

theorem moduleCalls_step {machine : Machine} {progress : Progress}
    (stepped : (machine.step flattenAll).outcome = .ok progress) :
    progress.graph.moduleCalls = machine.graph.moduleCalls := by
  unfold step at stepped
  split at stepped
  · cases stepped
  · simp only [Report.outcome_bind, Report.outcome_note, Report.outcome_ofExcept] at stepped
    exact moduleCalls_visit stepped

theorem moduleCalls_run {machine : Machine} {graph : Graph}
    (completed : (machine.run flattenAll).outcome = .ok graph) :
    graph.moduleCalls = machine.graph.moduleCalls := by
  unfold run at completed
  dsimp only at completed
  split at completed
  · cases completed
  · next stepped =>
    obtain rfl := Except.ok.inj completed
    exact moduleCalls_step stepped
  · next stepped =>
    rw [moduleCalls_run completed]
    exact moduleCalls_step stepped
termination_by machine.weight
decreasing_by exact weight_step (by assumption)

end Machine

end Tracing

theorem moduleCalls_trace {submodule : Submodule} {graph : Graph}
    (traced : (trace flattenAll submodule).outcome = .ok graph) : graph.moduleCalls = 0 := by
  simp only [trace, Report.outcome_bind, Report.outcome_ofExcept] at traced
  obtain ⟨_, _, completed⟩ := Outcome.bind_eq_ok.mp traced
  rw [Tracing.Machine.moduleCalls_run completed]
  rfl

/-! ### An expansion adds no submodule calls and removes no nodes -/

namespace Expansion

theorem moduleCalls_copyNodes (site : Site) {nodes : List Node}
    (noCalls : ∀ node ∈ nodes, node.op.isModuleCall = false) (args : List Arg) (env : Env)
    (graph : Graph) :
    (copyNodes site nodes args env graph).1.moduleCalls = graph.moduleCalls := by
  induction nodes generalizing args env graph with
  | nil => rfl
  | cons node rest ih =>
    have here := noCalls node List.mem_cons_self
    have later := fun other member => noCalls other (List.mem_cons_of_mem _ member)
    unfold copyNodes
    split
    · split
      · rfl
      · exact ih later _ _ _
    · split <;> rfl
    · dsimp only
      rw [ih later, Graph.moduleCalls_emit _ _ _ rfl]
    · split
      · rfl
      · next found =>
        dsimp only
        rw [ih later, Graph.moduleCalls_emit _ _ _ (by rw [Instruction.op_traverse found, here])]

theorem mem_copyNodes (site : Site) {nodes : List Node} {args : List Arg} {env : Env}
    {graph : Graph} {old : Node} (member : old ∈ graph.nodes) :
    old ∈ (copyNodes site nodes args env graph).1.nodes := by
  induction nodes generalizing args env graph with
  | nil => exact member
  | cons node rest ih =>
    unfold copyNodes
    split
    · split
      · exact member
      · exact ih member
    · split <;> exact member
    · exact ih (Graph.mem_emit member _ _)
    · split
      · exact member
      · exact ih (Graph.mem_emit member _ _)

theorem moduleCalls_splice (scope : String) (graph : Graph) (submodule : Submodule)
    (args : List Arg) (kwargs : Kwargs NodeId) :
    (splice scope graph submodule args kwargs).1.moduleCalls = graph.moduleCalls := by
  unfold splice
  split
  · dsimp only
    split
    · rfl
    · next body traced =>
      refine moduleCalls_copyNodes _ (fun node member => ?_) _ _ _
      have none := moduleCalls_trace traced
      simp only [Graph.moduleCalls, List.countP_eq_zero] at none
      simpa using none node member
  · rfl

theorem mem_splice {scope : String} {graph : Graph} {submodule : Submodule} {args : List Arg}
    {kwargs : Kwargs NodeId} {old : Node} (member : old ∈ graph.nodes) :
    old ∈ (splice scope graph submodule args kwargs).1.nodes := by
  unfold splice
  split
  · dsimp only
    split
    · exact member
    · exact mem_copyNodes _ member
  · exact member

end Expansion

theorem moduleCalls_expand (scope : String) (graph : Graph) (submodule : Submodule)
    (args : List Arg) (kwargs : Kwargs NodeId) :
    (expand scope graph submodule args kwargs).graph.moduleCalls = graph.moduleCalls := by
  unfold expand
  split
  · rfl
  · exact Expansion.moduleCalls_splice _ _ _ _ _

theorem mem_expand {scope : String} {graph : Graph} {submodule : Submodule} {args : List Arg}
    {kwargs : Kwargs NodeId} {old : Node} (member : old ∈ graph.nodes) :
    old ∈ (expand scope graph submodule args kwargs).graph.nodes := by
  unfold expand
  split
  · exact member
  · exact Expansion.mem_splice member

end OpGraph
