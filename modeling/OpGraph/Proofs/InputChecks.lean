import OpGraph.Proofs.ExpansionOutcome
import OpGraph.Proofs.Paths

/-!
# Input checks in expansions

The override of an input check lasts as long as the expansion that it was made for, and it reaches
one submodule only.  The forest is the same after an expansion and after a normalization
(`normalizeIn_eq`), and the check of the called submodule plays no part in the outcome
(`Tracing.walk_overridden`).

The checks below the called submodule stay in force.  The tracer keeps a stack, on which every
submodule is a descendant of the one that called it (`Tracing.Machine.Stacked`), and it stops at the
first input that a check in force rejects.
-/

namespace OpGraph

/-! ### The forest -/

namespace Report

variable {α β : Type}

theorem bind_of_error {report : Report α} {cause : Failure} (next : α → Report β)
    (failure : report.outcome = .error cause) :
    (report >>= next) = ⟨report.journal, .error cause⟩ := by
  show Report.bind report next = _
  rw [Report.bind, failure]

theorem bind_of_ok {report : Report α} {value : α} (next : α → Report β)
    (success : report.outcome = .ok value) :
    (report >>= next) =
      ⟨report.journal ++ (next value).journal, (next value).outcome⟩ := by
  show Report.bind report next = _
  rw [Report.bind, success]

end Report

namespace Scan

variable {rules : Rules} {forest : Forest} {scan : Scan}

theorem run_of_none (noneAhead : scan.graph.nodes[scan.cursor]? = none) :
    scan.run rules forest = pure scan.graph := by
  rw [run]
  split
  · rfl
  · next found => cases noneAhead.symm.trans found

theorem run_of_some {node : Node} (found : scan.graph.nodes[scan.cursor]? = some node) :
    scan.run rules forest = scan.visit rules forest node >>= run rules forest := by
  rw [run]
  split
  · next noneAhead => cases found.symm.trans noneAhead
  · next other foundOther =>
    obtain rfl := Option.some.inj (found.symm.trans foundOther)
    dsimp only
    split
    · next failure => rw [Report.bind_of_error _ failure]
    · next success => rw [Report.bind_of_ok _ success]

/-- A normalization that carries the forest along leaves it as it was, and does what one with a
fixed forest does. -/
theorem runIn_eq (rules : Rules) (forest : Forest) (scan : Scan) :
    scan.runIn rules forest = (forest, scan.run rules forest) := by
  fun_induction Scan.runIn rules forest scan with
  | case1 forest scan noneAhead => rw [run_of_none noneAhead]
  | case2 forest scan node found visited cause failure =>
      have same : visited = (forest, scan.visit rules forest node) :=
        visitIn_eq rules forest scan node
      rw [same] at failure ⊢
      rw [run_of_some found, Report.bind_of_error _ failure]
  | case3 forest scan node found visited next success later ih =>
      have same : visited = (forest, scan.visit rules forest node) :=
        visitIn_eq rules forest scan node
      have rest : later = (forest, next.run rules forest) := ih.trans (by rw [same])
      rw [same] at success ⊢
      rw [rest, run_of_some found, Report.bind_of_ok _ success]

end Scan

/-- No override outlives a normalization. -/
theorem normalizeIn_eq (rules : Rules) (program : Program) :
    normalizeIn rules program = (program.submodules, normalize rules program) := by
  simp only [normalizeIn, Scan.runIn_eq]
  rfl

/-! ### The check of the called submodule -/

namespace Tracing

/-- An overridden check plays no part in a trace: the induction is on the nodes of the body, and the
children are the same. -/
theorem walk_overridden (leaf : LeafPolicy) (owner : Submodule) (check : Option (Node → Bool))
    (body : Graph) (scope : String) (nodes : List Node) (inputs : Option CallInputs) (env : Env)
    (graph : Graph) :
    walk leaf { owner with check, overridden := true } body scope nodes inputs env graph =
      walk leaf { owner with overridden := true } body scope nodes inputs env graph := by
  induction nodes generalizing inputs env graph with
  | nil => rw [walk, walk]
  | cons node rest ih =>
      rw [walk.eq_def, walk.eq_def leaf { owner with overridden := true }]
      simp only [ih]
      rfl

end Tracing

theorem trace_of_none {leaf : LeafPolicy} {submodule : Submodule}
    (noBody : submodule.body = none) :
    trace leaf submodule = .fail (.notTraceable submodule.className) := by
  rw [trace, Tracing.Frame.enter, noBody]
  rfl

theorem trace_of_body {leaf : LeafPolicy} {submodule : Submodule} {body : Graph}
    (hasBody : submodule.body = some body) :
    trace leaf submodule = Tracing.walk leaf submodule body "" body.nodes none ∅ {} >>=
      Tracing.Machine.resume leaf [] := by
  rw [trace, Tracing.Frame.enter, hasBody]
  exact Tracing.Machine.agrees leaf submodule body "" body.nodes none ∅ {} []

theorem trace_overridden (leaf : LeafPolicy) (submodule : Submodule)
    (check : Option (Node → Bool)) :
    trace leaf { submodule with check, overridden := true } =
      trace leaf { submodule with overridden := true } := by
  rcases Option.eq_none_or_eq_some submodule.body with noBody | ⟨body, hasBody⟩
  · rw [trace_of_none (by exact noBody), trace_of_none (by exact noBody)]
  · rw [trace_of_body (by exact hasBody), trace_of_body (by exact hasBody),
      Tracing.walk_overridden]

/-- An expansion does not depend on the check of the called submodule. -/
theorem expand_of_check {submodule : Submodule} (free : submodule.overridden = false)
    (check : Option (Node → Bool)) (scope : String) (graph : Graph) (args : List Arg)
    (kwargs : Kwargs NodeId) :
    (expand scope graph { submodule with check } args kwargs).graph =
        (expand scope graph submodule args kwargs).graph ∧
      (expand scope graph { submodule with check } args kwargs).report =
        (expand scope graph submodule args kwargs).report := by
  have freeToo : ({ submodule with check } : Submodule).overridden = false := free
  rw [Expansion.expand_of_free free, Expansion.expand_of_free freeToo]
  simp only [Expansion.splice, trace_overridden flattenAll submodule check, and_self]

/-! ### The checks below the called submodule -/

/-- A check rejects a node if it is in force and says so. -/
theorem Submodule.accepts_eq_false_iff {submodule : Submodule} {node : Node} :
    submodule.accepts node = false ↔
      submodule.overridden = false ∧
        ∃ check, submodule.check = some check ∧ check node = false := by
  rw [accepts, Bool.or_eq_false_iff]
  refine and_congr_right fun _ => ?_
  cases submodule.check with
  | none => simp
  | some check => simp

namespace Env

variable {env : Env} {className : String}

theorem value_eq_error {id : NodeId} {cause : Failure}
    (failure : env.value id = .error cause) : cause = .unknownNode id := by
  unfold Env.value at failure
  split at failure
  · cases failure
  · exact (Except.error.inj failure).symm

/-- Looking up arguments fails for unknown nodes only. -/
theorem traverse_ne_rejected {argument : Arg} :
    argument.traverse env.value ≠ .error (.inputRejected className) := by
  intro failure
  obtain ⟨id, unknown⟩ := Argument.exists_of_traverse_eq_error failure
  cases value_eq_error unknown

theorem traverse_instruction_ne_rejected {instruction : Instruction} :
    instruction.traverse env.value ≠ .error (.inputRejected className) := by
  intro failure
  obtain ⟨id, unknown⟩ := Instruction.exists_of_traverse_eq_error failure
  cases value_eq_error unknown

end Env

namespace Tracing.Machine

variable {leaf : LeafPolicy} {machine next : Machine} {node : Node} {rest : List Node}
variable {className : String}

/-- What a machine comes to does not change on the way. -/
theorem Reaches.outcome_run (reaches : Reaches leaf machine next) :
    (machine.run leaf).outcome = (next.run leaf).outcome := by
  induction reaches with
  | refl => rfl
  | tail _ step ih =>
      rw [ih, Machine.outcome_run, step]
      rfl

/-- A trace that fails gets to a step that fails. -/
theorem exists_reaches_of_error {cause : Failure}
    (failed : (machine.run leaf).outcome = .error cause) :
    ∃ last, Reaches leaf machine last ∧ (last.step leaf).outcome = .error cause := by
  induction machine using Machine.run.induct leaf with
  | case1 machine _ other failure =>
      rw [Machine.outcome_run, failure] at failed
      obtain rfl := Except.error.inj failed
      exact ⟨machine, .refl, failure⟩
  | case2 machine _ graph success =>
      rw [Machine.outcome_run, success] at failed
      cases failed
  | case3 machine _ next success ih =>
      rw [Machine.outcome_run, success] at failed
      obtain ⟨last, reaches, failure⟩ := ih failed
      exact ⟨last, .head success reaches, failure⟩

/-- The next node is an input of a submodule whose check is not overridden and rejects it. -/
structure Rejects (machine : Machine) (node : Node) : Prop where
  next : ∃ rest, machine.frame.pending = node :: rest
  isInput : node.op = .placeholder
  inForce : machine.frame.owner.overridden = false
  rejected : ∃ check, machine.frame.owner.check = some check ∧ check node = false

theorem recordCopy_ne_rejected :
    machine.recordCopy rest node ≠ .error (.inputRejected className) := by
  intro failure
  rcases Outcome.bind_eq_error.mp failure with failure | ⟨_, -, impossible⟩
  · exact Env.traverse_instruction_ne_rejected failure
  · cases impossible

theorem visitInput_eq_rejected_iff :
    machine.visitInput rest node = .error (.inputRejected className) ↔
      machine.frame.owner.accepts node = false ∧ machine.frame.owner.className = className := by
  unfold visitInput
  dsimp only
  split
  · next accepted =>
    simp only [accepted, Bool.true_eq_false, false_and, iff_false]
    split
    · exact recordCopy_ne_rejected
    · intro failure
      rcases Outcome.bind_eq_error.mp failure with failure | ⟨_, -, impossible⟩
      · unfold Frame.takeInput at failure
        split at failure
        · cases failure
        · split at failure
          · cases failure
          · cases failure
      · cases impossible
  · next rejected => simp [rejected]

theorem visitCall_ne_rejected {target : String} :
    machine.visitCall leaf rest node target ≠ .error (.inputRejected className) := by
  intro failure
  unfold visitCall at failure
  dsimp only at failure
  split at failure
  · cases failure
  · rcases Outcome.bind_eq_error.mp failure with failure | ⟨_, -, failure⟩
    · exact Env.traverse_instruction_ne_rejected failure
    · split at failure
      · cases failure
      · rcases Outcome.bind_eq_error.mp failure with failure | ⟨_, -, impossible⟩
        · unfold Frame.enter at failure
          split at failure
          · cases failure
          · cases failure
        · cases impossible

/-- Only a check rejects an input. -/
theorem visit_eq_rejected_iff :
    machine.visit leaf rest node = .error (.inputRejected className) ↔
      node.op = .placeholder ∧ machine.frame.owner.accepts node = false ∧
        machine.frame.owner.className = className := by
  unfold visit
  split
  · next isInput =>
    rw [Outcome.map_eq_error, visitInput_eq_rejected_iff]
    simp [isInput]
  · next isRead => simp [isRead]
  · next isFunction => simp [isFunction, Outcome.map_eq_error, recordCopy_ne_rejected]
  · next isMethod => simp [isMethod, Outcome.map_eq_error, recordCopy_ne_rejected]
  · next isCall => simp [isCall, Outcome.map_eq_error, visitCall_ne_rejected]
  · next isOutput =>
    simp only [isOutput, reduceCtorEq, false_and, iff_false]
    split
    · intro missing
      cases missing
    · rw [Outcome.map_eq_error]
      exact Env.traverse_ne_rejected

theorem step_eq_rejected_iff :
    (machine.step leaf).outcome = .error (.inputRejected className) ↔
      ∃ node, machine.Rejects node ∧ machine.frame.owner.className = className := by
  unfold step
  split
  · next noneLeft =>
    simp only [Report.outcome_fail, Except.error.injEq, reduceCtorEq, false_iff]
    rintro ⟨node, ⟨⟨rest, pending⟩, -⟩, -⟩
    cases noneLeft.symm.trans pending
  · next node rest pending =>
    have visited : (do
        Report.note (.visited node.op node.name)
        Report.ofExcept (machine.visit leaf rest node)).outcome =
          machine.visit leaf rest node := rfl
    rw [visited, visit_eq_rejected_iff]
    constructor
    · rintro ⟨isInput, rejected, named⟩
      obtain ⟨inForce, check⟩ := Submodule.accepts_eq_false_iff.mp rejected
      exact ⟨node, ⟨⟨rest, pending⟩, isInput, inForce, check⟩, named⟩
    · rintro ⟨other, ⟨⟨later, next⟩, isInput, inForce, check⟩, named⟩
      obtain ⟨rfl, rfl⟩ := List.cons.inj (pending.symm.trans next)
      exact ⟨isInput, Submodule.accepts_eq_false_iff.mpr ⟨inForce, check⟩, named⟩

/-- On the stack, every submodule is a descendant of the one that called it, down to `root`. -/
def Stacked (root : Submodule) (frame : Frame) : List (NodeId × Frame) → Prop
  | [] => frame.owner = root
  | (_, caller) :: callers =>
    (∃ target, caller.owner.descendant? target = some frame.owner) ∧ Stacked root caller callers

/-- What is on the stack depends on the submodule of a frame only. -/
theorem Stacked.of_owner_eq {root : Submodule} {frame other : Frame}
    {callers : List (NodeId × Frame)} (stacked : Stacked root frame callers)
    (same : other.owner = frame.owner) : Stacked root other callers := by
  cases callers with
  | nil => exact same.trans stacked
  | cons caller callers => exact ⟨same ▸ stacked.1, stacked.2⟩

/-- A submodule on the stack is the one at the bottom or a descendant of it. -/
theorem Stacked.exists_path {root : Submodule} {frame : Frame} {callers : List (NodeId × Frame)}
    (stacked : Stacked root frame callers) :
    frame.owner = root ∨ ∃ path, root.descendant? path = some frame.owner := by
  induction callers generalizing frame with
  | nil => exact Or.inl stacked
  | cons caller callers ih =>
      obtain ⟨⟨target, found⟩, below⟩ := stacked
      rcases ih below with isRoot | ⟨path, leads⟩
      · exact Or.inr ⟨target, isRoot ▸ found⟩
      · refine Or.inr ⟨path ++ "." ++ target, ?_⟩
        rw [Submodule.descendant?_joined, leads]
        exact found

/-- A step keeps the order of the stack. -/
theorem Stacked.step {root : Submodule} (stacked : Stacked root machine.frame machine.callers)
    (step : Step flattenAll machine next) : Stacked root next.frame next.callers := by
  obtain ⟨node, rest, pending, visit⟩ := visit_of_step step
  generalize running : Progress.running next = progress at visit
  cases visit with
  | input | argument | recorded =>
      obtain rfl := Progress.running.inj running
      exact stacked.of_owner_eq rfl
  | @entered target child _ _ _ isCall found _ entering =>
      obtain rfl := Progress.running.inj running
      obtain ⟨body, -, rfl⟩ := Frame.enter_eq_ok entering
      exact ⟨⟨target, found⟩, stacked.of_owner_eq rfl⟩
  | left =>
      unfold leave at running
      split at running
      · cases running
      · next callers =>
        obtain rfl := Progress.running.inj running
        rw [callers] at stacked
        exact stacked.2.of_owner_eq rfl

theorem Stacked.reaches {root : Submodule} (stacked : Stacked root machine.frame machine.callers)
    (reaches : Reaches flattenAll machine next) : Stacked root next.frame next.callers := by
  induction reaches with
  | refl => exact stacked
  | tail _ step ih => exact ih.step step

/-- A trace of the submodule, with all its children flattened, gets to the machine. -/
def IsReached (root : Submodule) (machine : Machine) : Prop :=
  ∃ frame, Frame.enter root "" none = .ok frame ∧ Reaches flattenAll ⟨{}, frame, []⟩ machine

theorem IsReached.exists_path {root : Submodule} (reached : machine.IsReached root) :
    machine.frame.owner = root ∨ ∃ path, root.descendant? path = some machine.frame.owner := by
  obtain ⟨frame, entering, reaches⟩ := reached
  obtain ⟨body, -, rfl⟩ := Frame.enter_eq_ok entering
  have stacked : Stacked root (⟨root, body, body.nodes, "", ∅, none⟩ : Frame) [] := rfl
  exact (stacked.reaches reaches).exists_path

end Tracing.Machine

/-- A trace fails for a rejected input exactly if it gets to an input that a check rejects. -/
theorem trace_eq_rejected_iff {root : Submodule} {className : String} :
    (trace flattenAll root).outcome = .error (.inputRejected className) ↔
      ∃ (machine : Tracing.Machine) (node : Node), machine.IsReached root ∧ machine.Rejects node ∧
        machine.frame.owner.className = className := by
  simp only [trace, Report.outcome_bind, Report.outcome_ofExcept]
  rw [Outcome.bind_eq_error]
  constructor
  · rintro (failure | ⟨frame, entering, failed⟩)
    · unfold Tracing.Frame.enter at failure
      split at failure
      · cases failure
      · cases failure
    · obtain ⟨last, reaches, failure⟩ := Tracing.Machine.exists_reaches_of_error failed
      obtain ⟨node, rejects, named⟩ := Tracing.Machine.step_eq_rejected_iff.mp failure
      exact ⟨last, node, ⟨frame, entering, reaches⟩, rejects, named⟩
  · rintro ⟨machine, node, ⟨frame, entering, reaches⟩, rejects, named⟩
    refine Or.inr ⟨frame, entering, ?_⟩
    rw [reaches.outcome_run, Tracing.Machine.outcome_run,
      Tracing.Machine.step_eq_rejected_iff.mpr ⟨node, rejects, named⟩]
    rfl

/-- Without keyword arguments, an expansion fails for a rejected input exactly if the trace does. -/
theorem expand_eq_rejected_iff_trace {submodule : Submodule} {className : String}
    (free : submodule.overridden = false) (scope : String) (graph : Graph) (args : List Arg) :
    (expand scope graph submodule args ∅).report.outcome =
        .error (.expansion submodule.className (.inputRejected className)) ↔
      (trace flattenAll { submodule with overridden := true }).outcome =
        .error (.inputRejected className) := by
  refine ⟨fun failed => ?_, fun rejected => (Expansion.expand_of_trace_error free rejected).2⟩
  cases traced : (trace flattenAll { submodule with overridden := true }).outcome with
  | error cause =>
      have enclosed := (Expansion.expand_of_trace_error free traced).2.symm.trans failed
      rw [(Failure.expansion.inj (Except.error.inj enclosed)).2]
  | ok body =>
      rcases Nat.lt_or_ge args.length body.placeholders.length with few | enough
      · have other := failed.symm.trans ((Expansion.outcome_expand free traced).2 few)
        cases (Failure.expansion.inj (Except.error.inj other)).2
      · obtain ⟨value, success⟩ := (Expansion.outcome_expand free traced).1 enough
        cases failed.symm.trans success

theorem expand_of_kwargs {submodule : Submodule} {kwargs : Kwargs NodeId}
    (free : submodule.overridden = false) (named : kwargs.isEmpty = false) (scope : String)
    (graph : Graph) (args : List Arg) :
    (expand scope graph submodule args kwargs).report.outcome =
      .error (.expansion submodule.className (.keywordArguments submodule.className)) := by
  rw [Expansion.expand_of_free free, Expansion.splice, named]
  rfl

/-- An expansion fails for a rejected input exactly if the trace gets to an input of a submodule
below the called one that a check in force rejects. -/
theorem expand_eq_rejected_iff {submodule : Submodule} (free : submodule.overridden = false)
    (scope : String) (graph : Graph) (args : List Arg) (kwargs : Kwargs NodeId)
    (className : String) :
    (expand scope graph submodule args kwargs).report.outcome =
        .error (.expansion submodule.className (.inputRejected className)) ↔
      kwargs = ∅ ∧ ∃ (machine : Tracing.Machine) (node : Node) (path : String),
        machine.IsReached { submodule with overridden := true } ∧ machine.Rejects node ∧
          submodule.descendant? path = some machine.frame.owner ∧
            machine.frame.owner.className = className := by
  constructor
  · intro failed
    have noKwargs : kwargs = ∅ := by
      cases named : kwargs.isEmpty with
      | true => exact Std.ExtTreeMap.isEmpty_iff.mp named
      | false =>
          have other := failed.symm.trans (expand_of_kwargs free named scope graph args)
          cases (Failure.expansion.inj (Except.error.inj other)).2
    subst noKwargs
    obtain ⟨machine, node, reached, rejects, named⟩ :=
      trace_eq_rejected_iff.mp ((expand_eq_rejected_iff_trace free scope graph args).mp failed)
    refine ⟨rfl, machine, node, ?_⟩
    rcases reached.exists_path with isRoot | ⟨path, leads⟩
    -- The called submodule itself rejects nothing, since its check is overridden.
    · have inForce := rejects.inForce
      rw [isRoot] at inForce
      cases inForce
    · exact ⟨path, reached, rejects, leads, named⟩
  · rintro ⟨rfl, machine, node, -, reached, rejects, -, named⟩
    exact (expand_eq_rejected_iff_trace free scope graph args).mpr
      (trace_eq_rejected_iff.mpr ⟨machine, node, reached, rejects, named⟩)

/-! ### Scoped and shallow -/

/-- A check that is overridden already cannot be overridden for an expansion. -/
theorem expand_of_overridden {submodule : Submodule} (overridden : submodule.overridden = true)
    (scope : String) (graph : Graph) (args : List Arg) (kwargs : Kwargs NodeId) :
    expand scope graph submodule args kwargs =
      ⟨graph, submodule, Expansion.enclose submodule.className
        (.fail (.checkAlreadyOverridden submodule.className))⟩ := by
  rw [expand, Submodule.holdCheck_of_overridden overridden]

theorem submodule_expand (scope : String) (graph : Graph) (submodule : Submodule)
    (args : List Arg) (kwargs : Kwargs NodeId) :
    (expand scope graph submodule args kwargs).submodule = submodule := by
  cases overridden : submodule.overridden with
  | true => rw [expand_of_overridden overridden]
  | false => rw [Expansion.expand_of_free overridden]

theorem Forest.fst_expandAt (forest : Forest) (path scope : String) (graph : Graph)
    (args : List Arg) (kwargs : Kwargs NodeId) :
    (forest.expandAt path scope graph args kwargs).1 = forest := by
  cases found : forest.get path with
  | error cause => simp only [expandAt, found]
  | ok submodule => rw [expandAt_of_get found]

/-- Overrides of input checks are scoped and shallow.  Whatever comes of an expansion or of a
normalization, the overrides are the same as before.  An expansion fails if the check of the called
submodule is overridden already.  Otherwise this check plays no part, while the checks below stay in
force: an expansion, which takes no keyword arguments, fails for a rejected input exactly if its
trace gets to an input of a descendant whose check is not overridden and rejects it. -/
theorem input_check_overrides_are_scoped :
    (∀ (scope : String) (graph : Graph) (submodule : Submodule) (args : List Arg)
      (kwargs : Kwargs NodeId),
      (expand scope graph submodule args kwargs).submodule = submodule) ∧
    (∀ (forest : Forest) (path scope : String) (graph : Graph) (args : List Arg)
      (kwargs : Kwargs NodeId),
      (forest.expandAt path scope graph args kwargs).1 = forest ∧
      ∀ submodule, forest.get path = .ok submodule →
        (forest.expandAt path scope graph args kwargs).2 =
          ((expand scope graph submodule args kwargs).graph,
            (expand scope graph submodule args kwargs).report)) ∧
    (∀ (rules : Rules) (program : Program),
      normalizeIn rules program = (program.submodules, normalize rules program)) ∧
    (∀ (scope : String) (graph : Graph) (submodule : Submodule) (args : List Arg)
      (kwargs : Kwargs NodeId), submodule.overridden = true →
      (expand scope graph submodule args kwargs).graph = graph ∧
      (expand scope graph submodule args kwargs).report.outcome =
        .error (.expansion submodule.className
          (.checkAlreadyOverridden submodule.className))) ∧
    (∀ (scope : String) (graph : Graph) (submodule : Submodule) (args : List Arg)
      (kwargs : Kwargs NodeId) (check : Option (Node → Bool)), submodule.overridden = false →
      (expand scope graph { submodule with check } args kwargs).graph =
        (expand scope graph submodule args kwargs).graph ∧
      (expand scope graph { submodule with check } args kwargs).report =
        (expand scope graph submodule args kwargs).report) ∧
    (∀ (scope : String) (graph : Graph) (submodule : Submodule) (args : List Arg)
      (kwargs : Kwargs NodeId) (className : String), submodule.overridden = false →
      ((expand scope graph submodule args kwargs).report.outcome =
          .error (.expansion submodule.className (.inputRejected className)) ↔
        kwargs = ∅ ∧ ∃ (machine : Tracing.Machine) (node : Node) (path : String),
          machine.IsReached { submodule with overridden := true } ∧ machine.Rejects node ∧
            submodule.descendant? path = some machine.frame.owner ∧
              machine.frame.owner.className = className)) := by
  refine ⟨submodule_expand, fun forest path scope graph args kwargs =>
    ⟨forest.fst_expandAt path scope graph args kwargs, fun submodule found => ?_⟩,
    normalizeIn_eq, fun scope graph submodule args kwargs overridden => ?_,
    fun scope graph submodule args kwargs check free =>
      expand_of_check free check scope graph args kwargs,
    fun scope graph submodule args kwargs className free =>
      expand_eq_rejected_iff free scope graph args kwargs className⟩
  · rw [Forest.expandAt_of_get found]
  · rw [expand_of_overridden overridden]
    exact ⟨rfl, rfl⟩

/-- A submodule with a check that rejects everything, and below it one whose check rejects inputs
without a record of the tracer. -/
def strictBlock : Submodule where
  className := "Block"
  body := some
    { nodes :=
        [{ op := .placeholder, id := ⟨0⟩, name := "x", info := some {} },
          { op := .callFunction ⟨"torch.exp"⟩, args := [.ref ⟨0⟩], id := ⟨1⟩, name := "exp" },
          { op := .callModule "norm.inner", args := [.ref ⟨1⟩], id := ⟨2⟩, name := "inner" },
          { op := .output, args := [.ref ⟨2⟩], id := ⟨3⟩, name := "output" }]
      created := 4 }
  children :=
    [("norm",
      { className := "Norm"
        children :=
          [("inner",
            { className := "Inner"
              body := some
                { nodes :=
                    [{ op := .placeholder, id := ⟨0⟩, name := "x" },
                      { op := .output, args := [.ref ⟨0⟩], id := ⟨1⟩, name := "output" }]
                  created := 2 }
              check := some fun node => node.info.isSome })]
        overridden := true })]
  check := some fun _ => false

theorem strictBlock_rejected_below :
    (expand "block." {} strictBlock [.literal (.int 1)] ∅).report.outcome =
        .error (.expansion "Block" (.inputRejected "Inner")) ∧
      (∃ (machine : Tracing.Machine) (node : Node) (path : String),
        machine.Rejects node ∧ strictBlock.descendant? path = some machine.frame.owner) ∧
      (expand "block." {} { strictBlock with check := none } [.literal (.int 1)] ∅).report =
        (expand "block." {} strictBlock [.literal (.int 1)] ∅).report ∧
      (expand "block." {} { strictBlock with overridden := true } [] ∅).report.outcome =
        .error (.expansion "Block" (.checkAlreadyOverridden "Block")) ∧
      (Forest.expandAt [("block", strictBlock)] "block" "block." {} [] ∅).2.2 =
        (expand "block." {} strictBlock [] ∅).report := by
  have free : strictBlock.overridden = false := rfl
  have found : (traceWithin flattenAll 100 { strictBlock with overridden := true }).any
      (fun report => report.outcome matches .error (.inputRejected "Inner")) = true := by
    decide +kernel
  rw [traceWithin_eq (by decide), Option.any_some] at found
  have rejected : (trace flattenAll { strictBlock with overridden := true }).outcome =
      .error (.inputRejected "Inner") := by
    split at found
    · next outcome => exact outcome
    · cases found
  have failed := (expand_eq_rejected_iff_trace free "block." {} [.literal (.int 1)]).mpr rejected
  obtain ⟨-, places, -, refused, same, below⟩ := input_check_overrides_are_scoped
  obtain ⟨-, machine, node, path, -, rejects, leads, -⟩ := (below _ _ _ _ _ _ free).mp failed
  refine ⟨failed, ⟨machine, node, path, rejects, leads⟩, (same _ _ _ _ _ none free).2,
    (refused _ _ { strictBlock with overridden := true } _ _ rfl).2, ?_⟩
  rw [(places [("block", strictBlock)] "block" "block." {} [] ∅).2 strictBlock rfl]

end OpGraph
