import Mathlib.Data.List.Induction
import OpGraph.Proofs.NormalizationSteps

/-!
# Normal forms

A scan leaves only nodes in normal form behind its cursor (`Scan.Settled`): a passed node is in
normal form as it is, or has been given a canonical function, and what an expansion puts in the
place of a call is still ahead.  So a completed scan leaves a graph in normal form.

A scan over nodes in normal form passes all of them, so a second normalization changes nothing.  And
if the expansion of one call leaves nodes in normal form, it is all that normalization does; the
expansion can be computed (`Scan.expandFor`).
-/

namespace OpGraph

namespace Scan

variable {rules : Rules} {submodules : Forest} {scan next : Scan} {node : Node}

/-- A node in normal form is passed as it is. -/
theorem outcome_visit_of_isNormal (scan : Scan) (normal : node.op.IsNormal rules submodules) :
    (scan.visit rules submodules node).outcome = .ok scan.advance := by
  cases isOp : node.op with
  | placeholder | getAttr | output => simp only [Scan.visit, isOp, Report.outcome_pure]
  | callMethod method =>
      rw [isOp] at normal
      have unlisted : rules.methodFunctions[method]? = none := normal
      simp only [Scan.visit, isOp, unlisted, Report.outcome_pure]
  | callFunction function =>
      rw [isOp] at normal
      have canonical : rules.canonical function = function := normal
      simp only [Scan.visit, isOp, canonical, if_true, Report.outcome_pure]
  | callModule path =>
      rw [isOp] at normal
      obtain ⟨submodule, found, isOpaque⟩ := normal
      have got : submodules.get path = .ok submodule := by rw [Forest.get, found]
      simp only [Scan.visit, isOp, got, Report.outcome_bind, Report.outcome_ofExcept]
      show (if rules.opaqueClasses.contains submodule.className = true then _ else _ :
        Report Scan).outcome = _
      rw [if_pos isOpaque]
      rfl

/-- A scan leaves a graph in normal form as it is. -/
theorem outcome_run_of_isNormal
    (normal : ∀ node ∈ scan.graph.nodes, node.op.IsNormal rules submodules) :
    (scan.run rules submodules).outcome = .ok scan.graph := by
  induction scan using Scan.run.induct rules submodules with
  | case1 scan noneAhead => exact outcome_run_of_none noneAhead
  | case2 scan node found _ cause failure =>
      have passed := outcome_visit_of_isNormal scan (normal node (List.mem_of_getElem? found))
      cases passed.symm.trans failure
  | case3 scan node found _ next success ih =>
      have passed := outcome_visit_of_isNormal scan (normal node (List.mem_of_getElem? found))
      obtain rfl := Except.ok.inj (passed.symm.trans success)
      rw [outcome_run_of_some found, passed]
      exact ih normal

/-! ### Computed expansions -/

/-- The graph after the expansion of a call, from the trace in a number of steps. -/
def expandFor (steps : Nat) (graph : Graph) (node : Node) (path : String) (submodule : Submodule) :
    Option Graph := do
  let body ← traceFor steps { submodule with overridden := true }
  let site : Expansion.Site :=
    ⟨submodule.className, path ++ ".", body.placeholders.length, node.args.length⟩
  let copies := Expansion.copyNodes site body.nodes node.args ∅
    { graph with insertionPoint := some node.id }
  let value ← copies.2.outcome.toOption
  ((({ copies.1 with insertionPoint := graph.insertionPoint } : Graph).redirect node.id value).erase
    node.id).toOption

theorem outcome_expandCall_of_expandFor {steps : Nat} {path : String} {submodule : Submodule}
    {graph : Graph} (notHeld : submodule.overridden = false) (noKwargs : node.kwargs.isEmpty = true)
    (found : expandFor steps scan.graph node path submodule = some graph) :
    (scan.expandCall node path submodule).outcome = .ok { scan with graph } := by
  have toOption : ∀ {α : Type} {outcome : Except Failure α} {value : α},
      outcome.toOption = some value → outcome = .ok value := by
    intro α outcome value isSome
    cases outcome with
    | error cause => cases isSome
    | ok other => exact congrArg Except.ok (Option.some.inj isSome)
  obtain ⟨body, traced, found⟩ := Option.bind_eq_some_iff.mp found
  obtain ⟨value, copied, erased⟩ := Option.bind_eq_some_iff.mp found
  have held : submodule.holdCheck = .ok { submodule with overridden := true } := by
    rw [Submodule.holdCheck, notHeld]
    rfl
  simp only [expandCall, Graph.insertingBefore, expand, held, Expansion.splice, if_pos noKwargs,
    outcome_trace_of_traceFor traced, Report.outcome_bind, Report.outcome_ofExcept,
    Report.outcome_pure]
  refine Outcome.bind_eq_ok.mpr
    ⟨value, Expansion.outcome_enclose_eq_ok.mpr (toOption copied), ?_⟩
  exact Outcome.bind_eq_ok.mpr ⟨graph, toOption erased, rfl⟩

theorem outcome_visit_of_expandable {path : String} {submodule : Submodule}
    (isCall : node.op = .callModule path) (found : submodules.find? path = some submodule)
    (expandable : rules.opaqueClasses.contains submodule.className = false) :
    (scan.visit rules submodules node).outcome =
      (scan.expandCall node path submodule).outcome := by
  have got : submodules.get path = .ok submodule := by
    rw [Forest.get, found]
  simp only [visit, isCall, got, Report.outcome_bind, Report.outcome_ofExcept]
  show (if rules.opaqueClasses.contains submodule.className = true then _ else _ :
    Report Scan).outcome = _
  rw [expandable]
  rfl

theorem outcome_visit_of_expandFor {path : String} {submodule : Submodule} {steps : Nat}
    {expanded : Graph} (isCall : node.op = .callModule path)
    (found : submodules.find? path = some submodule)
    (expandable : rules.opaqueClasses.contains submodule.className = false)
    (notHeld : submodule.overridden = false) (noKwargs : node.kwargs.isEmpty = true)
    (expands : expandFor steps scan.graph node path submodule = some expanded) :
    (scan.visit rules submodules node).outcome = .ok { scan with graph := expanded } :=
  (outcome_visit_of_expandable isCall found expandable).trans
    (outcome_expandCall_of_expandFor notHeld noKwargs expands)

theorem exists_run_of_visit (found : scan.graph.nodes[scan.cursor]? = some node)
    (visited : (scan.visit rules submodules node).outcome = .ok next)
    (later : ∃ graph, (next.run rules submodules).outcome = .ok graph) :
    ∃ graph, (scan.run rules submodules).outcome = .ok graph := by
  rw [outcome_run_of_some found, visited]
  exact later

/-- Only submodule calls can stop a scan. -/
theorem exists_run_of_noCalls (noCalls : scan.graph.moduleCalls = 0) :
    ∃ graph, (scan.run rules submodules).outcome = .ok graph := by
  induction scan using Scan.run.induct rules submodules with
  | case1 scan noneAhead => exact ⟨_, outcome_run_of_none noneAhead⟩
  | case2 scan node found _ cause failure =>
      have notCall : node.op.isModuleCall = false := by
        rw [Graph.moduleCalls, List.countP_eq_zero] at noCalls
        exact Bool.eq_false_of_not_eq_true (noCalls node (List.mem_of_getElem? found))
      have failed : (scan.visit rules submodules node).outcome = .error cause := failure
      unfold visit at failed
      split at failed
      · split at failed
        · cases failed
        · cases failed
      · dsimp only at failed
        split at failed
        · cases failed
        · cases failed
      · next isCall =>
        rw [isCall] at notCall
        cases notCall
      · cases failed
  | case3 scan node found _ next success ih =>
      refine exists_run_of_visit found success (ih ?_)
      rcases below_visit found success with fewer | ⟨asMany, -⟩
      · omega
      · omega

/-- A scan passes the nodes in normal form that stand first. -/
theorem outcome_run_of_passed {graph : Graph} {before after : List Node}
    (split : graph.nodes = before ++ after)
    (normal : ∀ node ∈ before, node.op.IsNormal rules submodules) :
    (run rules submodules { graph, cursor := 0 }).outcome =
      (run rules submodules { graph, cursor := before.length }).outcome := by
  induction before using List.reverseRecOn generalizing after with
  | nil => rfl
  | append_singleton before node ih =>
      rw [List.append_assoc] at split
      have found : graph.nodes[before.length]? = some node := by rw [split]; simp
      have isNormal := normal node (List.mem_append_right _ List.mem_cons_self)
      rw [ih split fun other member => normal other (List.mem_append_left _ member),
        outcome_run_of_some found, outcome_visit_of_isNormal _ isNormal, List.length_append]
      rfl

end Scan

/-- If the graph is in normal form once its first call of a submodule is expanded, then this
expansion normalizes it. -/
theorem outcome_normalize_of_expandFor {rules : Rules} {program : Program}
    {before after : List Node} {call : Node} {path : String} {submodule : Submodule} {steps : Nat}
    {expanded : Graph} (split : program.graph.nodes = before ++ call :: after)
    (passed : ∀ node ∈ before, node.op.IsNormal rules program.submodules)
    (isCall : call.op = .callModule path)
    (found : program.submodules.find? path = some submodule)
    (expandable : rules.opaqueClasses.contains submodule.className = false)
    (notHeld : submodule.overridden = false) (noKwargs : call.kwargs.isEmpty = true)
    (expands : Scan.expandFor steps program.graph call path submodule = some expanded)
    (normal : ∀ node ∈ expanded.nodes, node.op.IsNormal rules program.submodules) :
    (normalize rules program).outcome = .ok expanded := by
  have next : program.graph.nodes[before.length]? = some call := by rw [split]; simp
  have visited := @Scan.outcome_visit_of_expandFor rules program.submodules
    { graph := program.graph, cursor := before.length } call path submodule steps expanded isCall
    found expandable notHeld noKwargs expands
  rw [outcome_normalize, Scan.outcome_run_of_passed split passed, Scan.outcome_run_of_some next,
    visited]
  exact Scan.outcome_run_of_isNormal normal

/-- The product of a value and a factor. -/
def productModule : Submodule where
  className := "Product"
  body := some
    { nodes :=
        [{ op := .placeholder, id := ⟨0⟩, name := "value" },
          { op := .placeholder, id := ⟨1⟩, name := "factor" },
          { op := .callFunction ⟨"torch.mul"⟩, args := [.ref ⟨0⟩, .ref ⟨1⟩], id := ⟨2⟩,
            name := "mul" },
          { op := .output, args := [.ref ⟨2⟩], id := ⟨3⟩, name := "output" }]
      created := 4 }

/-- The product of a value and an attribute, which is passed by name. -/
def scaleModule : Submodule where
  className := "Scale"
  body := some
    { nodes :=
        [{ op := .placeholder, id := ⟨0⟩, name := "value" },
          { op := .getAttr "weight", id := ⟨1⟩, name := "weight" },
          { op := .callModule "product", args := [.ref ⟨0⟩],
            kwargs := (∅ : Kwargs NodeId).insert "factor" (.ref ⟨1⟩), id := ⟨2⟩,
            name := "product" },
          { op := .output, args := [.ref ⟨2⟩], id := ⟨3⟩, name := "output" }]
      created := 4 }
  children := [("product", productModule)]

/-- Calls of one method stand for calls of a function. -/
def reluRules : Rules := ({} : Rules).withMethod "relu" ⟨"torch.relu"⟩

/-- A submodule and a method are called. -/
def scaledRelu : Program where
  graph :=
    { nodes :=
        [{ op := .placeholder, id := ⟨0⟩, name := "input" },
          { op := .callModule "scale", args := [.ref ⟨0⟩], id := ⟨1⟩, name := "scale" },
          { op := .callMethod "relu", args := [.ref ⟨1⟩], id := ⟨2⟩, name := "relu" },
          { op := .output, args := [.ref ⟨2⟩], id := ⟨3⟩, name := "output" }]
      created := 4 }
  submodules := [("scale", scaleModule)]

/-- The call is expanded by all rules that do not keep its class opaque. -/
theorem exists_normalize_scaledRelu_of_transparent {rules : Rules}
    (transparent : rules.opaqueClasses.contains "Scale" = false) :
    ∃ graph, (normalize rules scaledRelu).outcome = .ok graph := by
  let node : Node := { op := .callModule "scale", args := [.ref ⟨0⟩], id := ⟨1⟩, name := "scale" }
  have expands : (Scan.expandFor 9 scaledRelu.graph node "scale" scaleModule).any
      (fun graph => graph.moduleCalls = 0) = true := by
    decide +kernel
  obtain ⟨expanded, found, noCalls⟩ := (Option.any_eq_true _ _).mp expands
  have visited : (Scan.visit rules scaledRelu.submodules
      { graph := scaledRelu.graph, cursor := 1 } node).outcome = .ok ⟨expanded, 1⟩ :=
    Scan.outcome_visit_of_expandFor rfl rfl transparent rfl rfl found
  rw [outcome_normalize]
  refine Scan.exists_run_of_visit rfl rfl (Scan.exists_run_of_visit rfl visited ?_)
  exact Scan.exists_run_of_noCalls (of_decide_eq_true noCalls)

theorem exists_normalize_scaledRelu :
    ∃ graph, (normalize reluRules scaledRelu).outcome = .ok graph :=
  exists_normalize_scaledRelu_of_transparent rfl

/-! ### Normalized graphs -/

/-- A normalized graph has distinct identities and only nodes in normal form. -/
theorem settled_normalize {rules : Rules} {program : Program} {graph : Graph}
    (wellFormed : program.graph.WellFormed)
    (success : (normalize rules program).outcome = .ok graph) :
    graph.WellFormed ∧ ∀ node ∈ graph.nodes, node.op.IsNormal rules program.submodules := by
  rw [outcome_normalize] at success
  obtain ⟨last, settled, rfl, noneAhead⟩ := Scan.run_induction
    (fun _ _ _ settled found visit => Scan.Settled.visit settled found visit)
    (Scan.settled_start wellFormed) success
  refine ⟨settled.wellFormed, fun node member => settled.normal node ?_⟩
  rw [List.take_of_length_le (List.getElem?_eq_none_iff.mp noneAhead)]
  exact member

/-- Normalization, with any tables and on any graph, leaves no listed method, no function with
another canonical name and no call of a submodule that could be expanded, and a second
normalization leaves the graph as it is. -/
theorem normalization_reaches_normal_form {rules : Rules} {program : Program} {graph : Graph}
    (wellFormed : program.graph.WellFormed)
    (success : (normalize rules program).outcome = .ok graph) :
    (∀ node ∈ graph.nodes, node.op.IsNormal rules program.submodules) ∧
      (normalize rules { program with graph }).outcome = .ok graph := by
  obtain ⟨-, normal⟩ := settled_normalize wellFormed success
  refine ⟨normal, ?_⟩
  rw [outcome_normalize]
  exact Scan.outcome_run_of_isNormal normal

/-- The function of a method is an alias of another, which is an alias of the first. -/
def cyclicRules : Rules :=
  { reluRules with
    aliases := ((∅ : FunctionMap FunctionPath).insert ⟨"torch.relu"⟩ ⟨"functional.relu"⟩).insert
      ⟨"functional.relu"⟩ ⟨"torch.relu"⟩ }

theorem scaledRelu_reaches_normal_form :
    ∃ graph, (normalize cyclicRules scaledRelu).outcome = .ok graph ∧
      (∀ node ∈ graph.nodes, node.op.IsNormal cyclicRules scaledRelu.submodules) ∧
        (normalize cyclicRules { scaledRelu with graph }).outcome = .ok graph := by
  obtain ⟨graph, success⟩ :=
    exists_normalize_scaledRelu_of_transparent (rfl : cyclicRules.opaqueClasses.contains _ = false)
  exact ⟨graph, success, normalization_reaches_normal_form ⟨by decide, by decide⟩ success⟩

end OpGraph
