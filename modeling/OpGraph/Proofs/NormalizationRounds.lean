import OpGraph.Proofs.NormalizationSteps
import OpGraph.Proofs.TraceRecords

/-!
# How long normalization takes

The cursor stands still when a call is expanded, and the graph grows.  But a trace is not larger
than the submodule weighs (`Graph.size_le_of_trace`), and it calls no submodule.  So with every
submodule call counted as more nodes than an expansion can add, the count falls with every visit
(`Scan.weight_visit`).  This gives a number of rounds after which the loop has ended, on every
graph.

Two more loops run inside a visit.  That of the tracer ends within the weight of the submodule.  The
one that follows aliases stops at a function that it has seen, which it meets within as many rounds
as there are aliases, and one more.
-/

namespace OpGraph

/-! ### Aliases -/

namespace Rules

/-- The loop that follows aliases until it meets a function again, cut off after a number of rounds:
nothing if it has not ended then. -/
def chase (aliases : FunctionMap FunctionPath) :
    Nat → List FunctionPath → FunctionPath → Option FunctionPath
  | 0, _, _ => none
  | rounds + 1, seen, function =>
    match aliases[function]? with
    | none => some function
    | some replacement =>
      if function ∈ seen then some function
      else chase aliases rounds (function :: seen) replacement

/-- The loop does what following the aliases does that have not been used. -/
theorem chase_eq {aliases unused : FunctionMap FunctionPath} {rounds : Nat}
    {seen : List FunctionPath} {function : FunctionPath}
    (left : ∀ other, unused[other]? = if other ∈ seen then none else aliases[other]?)
    (enough : unused.size < rounds) :
    chase aliases rounds seen function = some (followAliases unused function) := by
  induction rounds generalizing unused seen function with
  | zero => omega
  | succ rounds ih =>
      rw [chase]
      cases listed : aliases[function]? with
      | none =>
          have unlisted : unused[function]? = none := by
            rw [left, listed, ite_self]
          rw [followAliases_of_none unlisted]
      | some replacement =>
          dsimp only
          by_cases isSeen : function ∈ seen
          · have unlisted : unused[function]? = none := by rw [left, if_pos isSeen]
            rw [if_pos isSeen, followAliases_of_none unlisted]
          · have isUnused : unused[function]? = some replacement := by
              rw [left, if_neg isSeen, listed]
            have smaller := size_erase_lt isUnused
            rw [if_neg isSeen, followAliases_of_some isUnused]
            refine ih (fun other => ?_) (by omega)
            by_cases same : other = function
            · subst same
              simp
            · rw [getElem?_erase_of_ne same, left]
              simp [same]

end Rules

/-! ### Sizes -/

/-- A body records at most as many nodes as its own nodes and the bodies below can weigh. -/
theorem Tracing.Records.length_le {leaf : LeafPolicy} {owner : Submodule} {scope : String}
    {nodes added : List Node} {inputs : Option CallInputs} {env : Env} {graph final : Graph}
    {value : Arg} (records : Records leaf owner scope nodes inputs env graph added final value) :
    added.length ≤ nodes.length * (1 + Forest.weight owner.children) := by
  induction records with
  | input _ _ _ _ ih | argument _ _ _ _ ih | inner _ _ _ ih | kept _ _ _ _ _ ih =>
      simp only [List.length_cons, Nat.succ_mul]
      omega
  | @entered owner child _ target body _ _ _ _ _ _ _ _ _ _ _ _ _ found _ _ hasBody _ _
      ihInside ihLater =>
      have below : child.weight ≤ Forest.weight owner.children := Forest.weight_resolve_le found
      have size : child.body.elim 0 Graph.size = body.nodes.length := by rw [hasBody]; rfl
      rw [Submodule.weight_eq, size, Nat.succ_mul] at below
      simp only [List.length_append, List.length_cons, Nat.succ_mul]
      omega
  | output => exact Nat.zero_le _

/-- A trace is not larger than the submodule weighs. -/
theorem Graph.size_le_of_trace {leaf : LeafPolicy} {submodule : Submodule} {graph : Graph}
    (success : (trace leaf submodule).outcome = .ok graph) : graph.size ≤ submodule.weight := by
  obtain ⟨body, added, final, value, hasBody, records, -, nodes⟩ := Tracing.exists_records success
  have recorded := records.length_le
  have size : submodule.body.elim 0 Graph.size = body.nodes.length := by rw [hasBody]; rfl
  rw [Graph.size, nodes, List.length_append, List.length_singleton, Submodule.weight_eq, size,
    Nat.succ_mul]
  omega

/-- Copying puts as many nodes into the graph as it says, and at most those that are copied. -/
theorem Expansion.Copies.size_eq {scope : String} {nodes added : List Node} {args : List Arg}
    {env : Env} {graph final : Graph} {value : Arg}
    (copies : Copies scope nodes args env graph added final value) :
    final.size = graph.size + added.length ∧ added.length ≤ nodes.length := by
  induction copies with
  | input _ _ ih =>
      rw [List.length_cons]
      omega
  | output => exact ⟨rfl, Nat.zero_le _⟩
  | inner _ _ ih =>
      rw [Graph.size_emit] at ih
      simp only [List.length_cons]
      omega

theorem Expansion.Copies.mem {scope : String} {nodes added : List Node} {args : List Arg}
    {env : Env} {graph final : Graph} {value : Arg} {old : Node}
    (copies : Copies scope nodes args env graph added final value) (member : old ∈ graph.nodes) :
    old ∈ final.nodes := by
  induction copies with
  | input _ _ ih => exact ih member
  | output => exact member
  | inner _ _ ih => exact ih (Graph.mem_emit member _ _)

namespace Scan

variable {rules : Rules} {submodules : Forest} {scan next : Scan} {node : Node}

theorem size_dismiss_lt {final : Graph} (graph : Graph) (member : node ∈ final.nodes)
    (value : Arg) : (dismiss graph final node value).size < final.size := by
  have dropped := Graph.size_drop_lt (Graph.mem_redirect member node.id value)
  rw [Graph.size_redirect] at dropped
  exact dropped

/-- An exchange adds at most what the submodules weigh. -/
theorem Exchange.size_le {graph final : Graph} {added : List Node} {value : Arg}
    (exchange : Exchange rules submodules graph node added final value)
    (member : node ∈ graph.nodes) :
    (dismiss graph final node value).size ≤ graph.size + Forest.weight submodules := by
  have inside : node ∈ ({ graph with insertionPoint := some node.id } : Graph).nodes := member
  cases exchange with
  | renamed =>
      refine Nat.le_add_right_of_le (Nat.le_of_lt_succ ?_)
      refine Nat.lt_of_lt_of_eq (size_dismiss_lt graph (Graph.mem_emit inside _ _) _) ?_
      exact Graph.size_emit _ _ _
  | @expansion path submodule body _ _ _ _ found _ traced _ copies =>
      have fewer := size_dismiss_lt graph (copies.mem inside) value
      have size : final.size = graph.size + added.length := copies.size_eq.1
      have copied : added.length ≤ body.size := copies.size_eq.2
      have small : body.size ≤ submodule.weight := by
        have overridden := Graph.size_le_of_trace traced
        rwa [Submodule.weight_eq] at overridden ⊢
      have below : submodule.weight ≤ Forest.weight submodules := Forest.weight_resolve_le found
      omega

/-- The nodes ahead, with every submodule call counted as more nodes than its expansion has. -/
def weight (submodules : Forest) (scan : Scan) : Nat :=
  scan.ahead + scan.graph.moduleCalls * (Forest.weight submodules + 1)

theorem ahead_visit (found : scan.graph.nodes[scan.cursor]? = some node)
    (visit : Visit rules submodules scan node next) :
    next.ahead ≤ scan.ahead + Forest.weight submodules := by
  have inRange : scan.cursor < scan.graph.size := (List.getElem?_eq_some_iff.mp found).1
  cases visit with
  | passed =>
      simp only [ahead, advance]
      omega
  | exchanged exchange =>
      have size := exchange.size_le (List.mem_of_getElem? found)
      simp only [ahead]
      omega

theorem weight_visit (found : scan.graph.nodes[scan.cursor]? = some node)
    (visited : (scan.visit rules submodules node).outcome = .ok next) :
    next.weight submodules < scan.weight submodules := by
  have ahead := ahead_visit found (visit_of_eq_ok visited)
  unfold weight
  rcases below_visit found visited with fewer | ⟨asMany, nearer⟩
  · have calls : (next.graph.moduleCalls + 1) * (Forest.weight submodules + 1) ≤
        scan.graph.moduleCalls * (Forest.weight submodules + 1) := Nat.mul_le_mul_right _ fewer
    rw [Nat.succ_mul] at calls
    omega
  · have calls : next.graph.moduleCalls * (Forest.weight submodules + 1) ≤
        scan.graph.moduleCalls * (Forest.weight submodules + 1) := Nat.mul_le_mul_right _ asMany
    omega

/-- The loop of a normalization, cut off after a number of rounds: nothing if it has not ended
then. -/
def loop (rules : Rules) (submodules : Forest) : Nat → Scan → Option (Report Graph)
  | 0, _ => none
  | rounds + 1, scan =>
    match scan.graph.nodes[scan.cursor]? with
    | none => some (return scan.graph)
    | some node =>
      let visited := scan.visit rules submodules node
      match visited.outcome with
      | .error cause => some ⟨visited.journal, .error cause⟩
      | .ok next =>
        (loop rules submodules rounds next).map fun later =>
          ⟨visited.journal ++ later.journal, later.outcome⟩

/-- The loop ends within as many rounds as the scan weighs, and one more. -/
theorem loop_eq_run {rounds : Nat} (enough : scan.weight submodules < rounds) :
    loop rules submodules rounds scan = some (scan.run rules submodules) := by
  induction rounds generalizing scan with
  | zero => omega
  | succ rounds ih =>
      rw [loop, run]
      split
      · next noneAhead => rw [noneAhead]
      · next node found =>
        rw [found]
        dsimp only
        split
        · next failure => rw [failure]
        · next next success =>
          have lighter := weight_visit found success
          rw [success]
          dsimp only
          rw [ih (by omega)]
          rfl

end Scan

/-- Normalize the graph of a program by a loop that is cut off after a number of rounds. -/
def normalizeWithin (rules : Rules) (rounds : Nat) (program : Program) : Option (Report Graph) :=
  (Scan.loop rules program.submodules rounds { graph := program.graph, cursor := 0 }).map
    fun scanned => do
      .note (.normalizing program.graph.size)
      let graph ← scanned
      .note (.normalized graph.size)
      return graph

/-- A number of rounds in which a program is normalized. -/
def Program.rounds (program : Program) : Nat :=
  program.graph.size + program.graph.moduleCalls * (Forest.weight program.submodules + 1) + 1

/-- The loop of a normalization ends, on every graph and with all rules: within a number of rounds
that the sizes of the graph and the submodules give.  So do the loops inside it. -/
theorem normalization_ends (rules : Rules) (program : Program) (more : Nat) :
    normalizeWithin rules (program.rounds + more) program = some (normalize rules program) ∧
    (∀ function, Rules.chase rules.aliases (rules.aliases.size + 1 + more) [] function =
      some (rules.canonical function)) ∧
    (∀ submodule, traceWithin flattenAll (submodule.weight + more) submodule =
      some (trace flattenAll submodule)) := by
  refine ⟨?_, fun function => ?_, fun submodule => traceWithin_eq (Nat.le_add_right _ _)⟩
  · have weighs : Scan.weight program.submodules { graph := program.graph, cursor := 0 } <
        program.rounds + more := by
      simp only [Scan.weight, Scan.ahead, Program.rounds]
      omega
    rw [normalizeWithin, Scan.loop_eq_run weighs]
    rfl
  · refine Rules.chase_eq (fun other => ?_) (by omega)
    rw [if_neg List.not_mem_nil]

end OpGraph
