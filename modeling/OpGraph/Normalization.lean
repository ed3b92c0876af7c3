import OpGraph.Expansion
import OpGraph.Rules.Basic

/-!
# Normalization

Method calls that stand for functions become function calls, functions get their canonical names,
and calls of submodules are expanded unless their class stays opaque.  The graph is scanned from
its first node on.  After an expansion the scan goes on with the copied nodes, so they are
normalized as well.

An expansion removes a submodule call and adds none, and every other step passes a node.  Hence the
number of submodule calls and, for equal numbers, the number of nodes ahead fall with every step,
and the scan ends.
-/

namespace OpGraph

/-- A normalization in progress. -/
structure Scan where
  /-- The graph as changed so far. -/
  graph : Graph
  /-- The number of nodes that are done. -/
  cursor : Nat

namespace Scan

/-- Pass the next node as it is. -/
def advance (scan : Scan) : Scan :=
  { scan with cursor := scan.cursor + 1 }

/-- Replace the next node by a call of a function with the same arguments, and pass it. -/
def callInstead (scan : Scan) (node : Node) (function : FunctionPath) : Scan :=
  { graph := scan.graph.supersede node.id
      { node.toInstruction with op := .callFunction function }
    cursor := scan.cursor + 1 }

/-- Replace the next node, a call of a submodule at `path`, by the expansion of the call. -/
def expandCall (scan : Scan) (node : Node) (path : String) (submodule : Submodule) :
    Report Scan := do
  let (graph, report) := scan.graph.insertingBefore node.id fun graph =>
    let expansion := expand (path ++ ".") graph submodule node.args node.kwargs
    (expansion.graph, expansion.report)
  let value ← report
  let graph ← Report.ofExcept ((graph.redirect node.id value).erase node.id)
  return { scan with graph }

/-- Normalize the next node. -/
def visit (rules : Rules) (submodules : Forest) (scan : Scan) (node : Node) : Report Scan :=
  match node.op with
  | .callMethod method =>
    match rules.methodFunctions[method]? with
    | some named => do
      let function := rules.canonical named
      .note (.methodReplaced node.name method function)
      return scan.callInstead node function
    | none => return scan.advance
  | .callFunction function =>
    let canonical := rules.canonical function
    if canonical = function then
      return scan.advance
    else do
      .note (.functionReplaced node.name function canonical)
      return scan.callInstead node canonical
  | .callModule path => do
    let submodule ← Report.ofExcept (submodules.get path)
    if rules.opaqueClasses.contains submodule.className then
      .note (.keptOpaque node.name submodule.className)
      return scan.advance
    else
      .note (.expanding node.name submodule.className)
      scan.expandCall node path submodule
  | _ => return scan.advance

/-! ### Termination -/

/-- The number of nodes ahead. -/
def ahead (scan : Scan) : Nat :=
  scan.graph.size - scan.cursor

/-- A scan with fewer submodule calls, or as many and fewer nodes ahead. -/
def Below (next scan : Scan) : Prop :=
  next.graph.moduleCalls < scan.graph.moduleCalls ∨
    next.graph.moduleCalls ≤ scan.graph.moduleCalls ∧ next.ahead < scan.ahead

theorem below_advance {scan : Scan} {node : Node}
    (found : scan.graph.nodes[scan.cursor]? = some node) : scan.advance.Below scan := by
  have inRange : scan.cursor < scan.graph.size := (List.getElem?_eq_some_iff.mp found).1
  refine Or.inr ⟨Nat.le_refl _, ?_⟩
  simp only [ahead, advance]
  omega

theorem below_callInstead {scan : Scan} {node : Node}
    (found : scan.graph.nodes[scan.cursor]? = some node) (function : FunctionPath) :
    (scan.callInstead node function).Below scan := by
  have inRange : scan.cursor < scan.graph.size := (List.getElem?_eq_some_iff.mp found).1
  have member : node ∈ scan.graph.nodes := List.mem_of_getElem? found
  refine Or.inr ⟨?_, ?_⟩
  · simp only [callInstead, Graph.supersede]
    refine Nat.le_trans (Graph.moduleCalls_drop_le _ _) ?_
    exact Nat.le_of_eq
      ((Graph.moduleCalls_redirect _ _ _).trans (Graph.moduleCalls_emitBefore _ _ _ rfl))
  · have inside : node ∈ ({ scan.graph with insertionPoint := some node.id } : Graph).nodes :=
      member
    have kept : node ∈ (scan.graph.emitBefore node.id
        { node.toInstruction with op := .callFunction function }).nodes :=
      Graph.mem_emit inside _ _
    have dropped := Graph.size_drop_lt
      (Graph.mem_redirect kept node.id (.ref scan.graph.nextId))
    simp only [Graph.size_redirect, Graph.size_emitBefore] at dropped
    simp only [ahead, callInstead, Graph.supersede]
    omega

theorem below_expandCall {scan next : Scan} {node : Node} {path : String} {submodule : Submodule}
    (found : scan.graph.nodes[scan.cursor]? = some node) (isCall : node.op.isModuleCall = true)
    (expanded : (scan.expandCall node path submodule).outcome = .ok next) : next.Below scan := by
  have member : node ∈ scan.graph.nodes := List.mem_of_getElem? found
  simp only [expandCall, Graph.insertingBefore, Report.outcome_bind, Report.outcome_ofExcept,
    Report.outcome_pure] at expanded
  obtain ⟨value, _, rest⟩ := Outcome.bind_eq_ok.mp expanded
  obtain ⟨erased, success, same⟩ := Outcome.bind_eq_ok.mp rest
  obtain rfl := Except.ok.inj same
  obtain rfl := Graph.eq_drop_of_erase success
  refine Or.inl ?_
  let inner : Graph := { scan.graph with insertionPoint := some node.id }
  let expansion := expand (path ++ ".") inner submodule node.args node.kwargs
  have inside : node ∈ inner.nodes := member
  have kept : node ∈ expansion.graph.nodes := mem_expand inside
  have fewer := Graph.moduleCalls_drop_lt
    (Graph.mem_redirect kept node.id value) (by exact isCall)
  have redirected := Graph.moduleCalls_redirect expansion.graph node.id value
  have same : expansion.graph.moduleCalls = inner.moduleCalls := moduleCalls_expand ..
  rw [redirected, same] at fewer
  exact fewer

theorem below_visit {rules : Rules} {submodules : Forest} {scan next : Scan} {node : Node}
    (found : scan.graph.nodes[scan.cursor]? = some node)
    (visited : (scan.visit rules submodules node).outcome = .ok next) : next.Below scan := by
  unfold visit at visited
  split at visited
  · split at visited
    · simp only [Report.outcome_bind, Report.outcome_note, Report.outcome_pure] at visited
      obtain rfl := Except.ok.inj visited
      exact below_callInstead found _
    · obtain rfl := Except.ok.inj visited
      exact below_advance found
  · dsimp only at visited
    split at visited
    · obtain rfl := Except.ok.inj visited
      exact below_advance found
    · simp only [Report.outcome_bind, Report.outcome_note, Report.outcome_pure] at visited
      obtain rfl := Except.ok.inj visited
      exact below_callInstead found _
  · next isCall =>
    simp only [Report.outcome_bind, Report.outcome_ofExcept] at visited
    obtain ⟨submodule, _, rest⟩ := Outcome.bind_eq_ok.mp visited
    split at rest
    · simp only [Report.outcome_bind, Report.outcome_note, Report.outcome_pure] at rest
      obtain rfl := Except.ok.inj rest
      exact below_advance found
    · simp only [Report.outcome_bind, Report.outcome_note] at rest
      exact below_expandCall found (by rw [isCall]; rfl) rest
  · obtain rfl := Except.ok.inj visited
    exact below_advance found

/-- Normalize nodes until none is ahead. -/
def run (rules : Rules) (submodules : Forest) (scan : Scan) : Report Graph :=
  match _found : scan.graph.nodes[scan.cursor]? with
  | none => return scan.graph
  | some node =>
    let visited := scan.visit rules submodules node
    match _outcome : visited.outcome with
    | .error cause => ⟨visited.journal, .error cause⟩
    | .ok next =>
      let later := next.run rules submodules
      ⟨visited.journal ++ later.journal, later.outcome⟩
termination_by (scan.graph.moduleCalls, scan.ahead)
decreasing_by
  rcases below_visit _found _outcome with fewer | ⟨asMany, nearer⟩
  · exact Prod.Lex.left _ _ fewer
  · rcases Nat.lt_or_eq_of_le asMany with fewer | equal
    · exact Prod.Lex.left _ _ fewer
    · rw [equal]
      exact Prod.Lex.right _ nearer

end Scan

/-- The normalized graph of a program. -/
def normalize (rules : Rules) (program : Program) : Report Graph := do
  .note (.normalizing program.graph.size)
  let graph ← Scan.run rules program.submodules { graph := program.graph, cursor := 0 }
  .note (.normalized graph.size)
  return graph

end OpGraph
