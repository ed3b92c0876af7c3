import OpGraph.Proofs.NormalForm
import OpGraph.Proofs.TraceMeaning

/-!
# Normalization keeps what a program does

The copied nodes of an expansion take the steps of the traced nodes (`Expansion.Copies.run`), which
take the steps of the body.  So an expansion does what the call did, and a function that stands for
another operation does what the operation did (`Scan.Exchange.perform`).  Each visit of a scan thus
keeps the evaluation of the whole graph: the steps, their order, the results and the final state.
-/

namespace OpGraph

/-! ### Functions that stand for others -/

/-- A method means what its function means, and an alias what its replacement means. -/
structure Evaluator.Respects {σ V : Type} (evaluator : Evaluator σ V) (rules : Rules) : Prop where
  method : ∀ (method : String) (function : FunctionPath),
    rules.methodFunctions[method]? = some function →
      evaluator.callMethod method = evaluator.callFunction function
  function : ∀ function replacement : FunctionPath, rules.aliases[function]? = some replacement →
    evaluator.callFunction function = evaluator.callFunction replacement

/-- The end of a chain of aliases means what its start means. -/
theorem Rules.followAliases_meaning {α : Type} {meaning : FunctionPath → α}
    {aliases : FunctionMap FunctionPath} {function : FunctionPath}
    (same : ∀ listed replacement : FunctionPath, aliases[listed]? = some replacement →
      meaning listed = meaning replacement) :
    meaning (followAliases aliases function) = meaning function := by
  induction aliases, function using followAliases.induct with
  | case1 aliases function replacement known ih =>
      rw [followAliases]
      split
      · next other found =>
        obtain rfl := Option.some.inj (known.symm.trans found)
        rw [same function replacement known]
        refine ih fun listed image remaining => same listed image ?_
        rw [Std.ExtTreeMap.getElem?_erase] at remaining
        split at remaining
        · cases remaining
        · exact remaining
      · next none => cases known.symm.trans none
  | case2 aliases function none =>
      rw [followAliases]
      split
      · next found => cases none.symm.trans found
      · rfl

theorem Op.StandsFor.meaning {σ V : Type} {rules : Rules} {op : Op} {function : FunctionPath}
    {evaluator : Evaluator σ V} (standsFor : op.StandsFor rules function)
    (respects : evaluator.Respects rules) (call : String → Operands V → Effect σ (Argument V))
    (scope : String) :
    evaluator.meaning call scope (.callFunction function) = evaluator.meaning call scope op := by
  funext operands
  cases standsFor with
  | @method method named listed =>
      show Effect.ofTotal (evaluator.callFunction _ operands) =
        .ofTotal (evaluator.callMethod _ operands)
      rw [respects.method method named listed, Rules.canonical,
        Rules.followAliases_meaning respects.function]
  | function named =>
      show Effect.ofTotal (evaluator.callFunction _ operands) =
        .ofTotal (evaluator.callFunction _ operands)
      rw [Rules.canonical, Rules.followAliases_meaning respects.function]

/-! ### Expansions -/

theorem Activation.traverseAll_bind_of_none {V : Type} {activation : Activation V} {name : NodeId}
    (fresh : activation.values name = none) (value : Argument V) {args : List Arg}
    {results : List (Argument V)}
    (read : Argument.traverseAll activation.look args = .ok results) :
    Argument.traverseAll (activation.bind name value).look args = .ok results := by
  have whole : (Argument.tuple args).traverse activation.look = .ok (.tuple results) :=
    Outcome.map_eq_ok.mpr ⟨results, read, rfl⟩
  obtain ⟨others, found, same⟩ :=
    Outcome.map_eq_ok.mp (Activation.traverse_bind_of_none fresh value whole)
  rw [found, Argument.tuple.inj same]

/-- Copied nodes take the steps of the traced ones, and the value of the copied body is the value of
the traced one. -/
theorem Expansion.Copies.run {σ V : Type} {scope : String} {nodes added : List Node}
    {args : List Arg} {env : Env} {graph final : Graph} {value : Arg} {inner outer : Activation V}
    (copies : Copies scope nodes args env graph added final value)
    (noCalls : ∀ node ∈ nodes, node.op.isModuleCall = false) (told : env.Tells inner outer)
    (passed : Argument.traverseAll outer.look args = .ok inner.supply.args)
    (counted : outer.Counted graph.created) (evaluator : Evaluator σ V)
    (call callNew : String → Operands V → Effect σ (Argument V)) (base : String) :
    Activation.run (evaluator.meaning call (base ++ scope)) Activation.result nodes inner = (do
      let next ← added.foldlM (Activation.perform (evaluator.meaning callNew base)) outer
      .ofExcept (value.traverse next.look)) := by
  induction copies generalizing inner outer with
  | @input node rest added argument value args env graph final isInput copies ih =>
      obtain ⟨first, foundFirst, passed⟩ := Outcome.bind_eq_ok.mp passed
      obtain ⟨others, foundOthers, same⟩ := Outcome.bind_eq_ok.mp passed
      rw [Activation.run_cons (Op.ne_output_of_isInput isInput), Activation.perform_input isInput,
        Activation.take, ← Except.ok.inj same, Effect.ofExcept_ok, pure_bind]
      exact ih (fun other member => noCalls other (List.mem_cons_of_mem _ member))
        (told.insert foundFirst node.id) foundOthers counted
  | @output node rest result value others args env graph isOutput results found =>
      obtain ⟨known, inside, outside⟩ := told.traverse found
      rw [Activation.run_output isOutput, Activation.result, results, List.headD_cons, inside,
        List.foldlM_nil, pure_bind, outside]
  | @inner node rest added instruction value args env graph final relocated copies ih =>
      let new := graph.newNode instruction none
      obtain ⟨step, performed, performedNew⟩ :=
        @Node.Relocated.perform σ V _ _ _ new _ _ _ relocated
        told (noCalls node List.mem_cons_self) rfl evaluator call callNew base
      rw [Activation.run_cons relocated.notOutput, List.foldlM_cons, performed, performedNew]
      simp only [bind_assoc, pure_bind]
      congr 1
      funext known
      exact ih (fun other member => noCalls other (List.mem_cons_of_mem _ member))
        (told.record counted.fresh node.id known)
        (Activation.traverseAll_bind_of_none counted.fresh known passed) (counted.bind known)

namespace Scan.Exchange

variable {σ V : Type} {rules : Rules} {submodules : Forest} {graph final : Graph} {node : Node}
variable {before added after : List Node} {value : Arg} {activation : Activation V}

/-- What a call of an expandable submodule does is done by the copies of its trace. -/
theorem call_expansion {path : String} {submodule : Submodule} {body : Graph}
    {operands : Operands V} (found : submodules.find? path = some submodule)
    (expandable : rules.opaqueClasses.contains submodule.className = false)
    (traced : (trace flattenAll { submodule with overridden := true }).outcome = .ok body)
    (copies : Expansion.Copies (path ++ ".") body.nodes node.args ∅
      { graph with insertionPoint := some node.id } added final value)
    (passed : Argument.traverseAll activation.look node.args = .ok operands.args)
    (noKeywords : operands.kwargs = ∅) (counted : activation.Counted graph.created)
    (evaluator : Evaluator σ V) :
    evaluator.call rules submodules path operands = (do
      let next ← added.foldlM
        (Activation.perform (evaluator.meaning (evaluator.call rules submodules) "")) activation
      .ofExcept (value.traverse next.look)) := by
  have noCalls : ∀ other ∈ body.nodes, other.op.isModuleCall = false := by
    have none := moduleCalls_trace traced
    rw [Graph.moduleCalls, List.countP_eq_zero] at none
    exact fun other member => Bool.eq_false_of_not_eq_true (none other member)
  have scopes : "" ++ path ++ "." = "" ++ (path ++ ".") := String.append_assoc ..
  obtain ⟨source, hasBody⟩ := exists_body_of_trace traced
  have called : evaluator.call rules submodules path operands =
      evaluator.callByBody submodules "" path operands := by
    rw [Evaluator.call, found]
    exact if_neg (by rw [expandable]; exact Bool.false_ne_true)
  rw [called, Evaluator.callByBody_eq found hasBody, scopes]
  refine
    (run_trace hasBody traced evaluator (evaluator.call rules submodules) _ noKeywords).trans ?_
  exact copies.run noCalls .empty passed counted evaluator _ _ ""

/-- What takes the place of a node does what the node did. -/
theorem perform {evaluator : Evaluator σ V}
    (exchange : Exchange rules submodules graph node added final value)
    (wellFormed : graph.WellFormed) (split : graph.nodes = before ++ node :: after)
    (valid : Graph.Valid graph.nodes) (respects : evaluator.Respects rules)
    (covers : activation.Covers (before.map Node.id)) :
    activation.perform (evaluator.meaning (evaluator.call rules submodules) "") node = (do
      let next ← added.foldlM
        (Activation.perform (evaluator.meaning (evaluator.call rules submodules) "")) activation
      let result ← .ofExcept (value.traverse next.look)
      return activation.bind node.id result) := by
  have bound : ∀ input ∈ node.inputs, Argument.Bound activation.look input := by
    intro input isInput
    have closed := valid.closed
    rw [split] at closed
    exact covers.bound (by simpa using (Graph.closed_append.mp closed).2.1 input isInput)
  obtain ⟨operands, read⟩ := Instruction.exists_read bound
  have counted : activation.Counted graph.created := by
    intro id known found
    refine wellFormed.counted id ?_
    rw [Graph.ids, split, List.map_append]
    exact List.mem_append_left _ ((covers id).mp ⟨known, found⟩)
  cases exchange with
  | @renamed function standsFor =>
      let new := graph.newNode { node.toInstruction with op := .callFunction function } none
      have readNew : new.toInstruction.read activation.look = .ok operands := read
      have isCall := standsFor.isCall
      have isCallNew : new.op.isCall = true := rfl
      rw [Activation.perform_step (Op.isInner_of_isCall isCall).1,
        Activation.operands_of_isCall isCall, read, Effect.ofExcept_ok, pure_bind, List.foldlM_cons,
        Activation.perform_step (Op.isInner_of_isCall isCallNew).1,
        Activation.operands_of_isCall isCallNew, readNew, Effect.ofExcept_ok, pure_bind,
        ← standsFor.meaning respects]
      simp only [List.foldlM_nil, bind_assoc, pure_bind]
      congr 1
      funext known
      have look : (Argument.ref graph.nextId).traverse (activation.bind new.id known).look =
          .ok known := Activation.look_bind_self activation new.id known
      rw [look, Effect.ofExcept_ok, pure_bind]
  | @expansion path submodule body _ _ _ isCall found expandable traced noKwargs copies =>
      have isStep : node.op.isCall = true := by
        rw [isCall]
        rfl
      obtain ⟨passed, keywords⟩ := Instruction.read_eq_ok_iff.mp read
      have noKeywords : operands.kwargs = ∅ := by
        rw [Std.ExtTreeMap.isEmpty_iff.mp noKwargs] at keywords
        exact (Except.ok.inj keywords).symm
      rw [Activation.perform_step (Op.isInner_of_isCall isStep).1,
        Activation.operands_of_isCall isStep, read, Effect.ofExcept_ok, pure_bind, isCall]
      show evaluator.call rules submodules path operands >>= _ = _
      rw [call_expansion found expandable traced copies passed noKeywords counted, bind_assoc]

end Scan.Exchange

/-! ### Whole programs -/

namespace Activation

variable {σ V : Type} {meaning : Op → Operands V → Effect σ (Argument V)}

theorem bound_of_values {known : Set NodeId} {activation next : Activation V} {id : NodeId}
    {value : Argument V} (bound : ∀ i ∈ known, Argument.Bound activation.look i)
    (values : next.values = (activation.bind id value).values) :
    ∀ i ∈ insert id known, Argument.Bound next.look i := by
  intro i member
  by_cases same : i = id
  · refine ⟨value, look_eq_ok_iff.mpr ?_⟩
    rw [values, same]
    exact Function.update_self id _ _
  · obtain ⟨old, found⟩ := bound i (member.resolve_left same)
    refine ⟨old, look_eq_ok_iff.mpr ?_⟩
    rw [values]
    exact (Function.update_of_ne same _ _).trans (look_eq_ok_iff.mp found)

/-- A closed and arranged graph with enough inputs is evaluated to its end, if its operations do not
get stuck. -/
theorem exists_run {nodes : List Node} {known : Set NodeId} {past : Bool}
    {activation : Activation V}
    (closed : Graph.Closed known nodes) (arranged : Graph.Arranged past nodes)
    (bound : ∀ id ∈ known, Argument.Bound activation.look id)
    (enough : nodes.countP (fun node => node.op = .placeholder) ≤ activation.supply.args.length)
    (total : ∀ node ∈ nodes, node.op.IsInner → ∀ operands state,
      ∃ result, (meaning node.op operands).run state = .ok result) (state : σ) :
    ∃ result, (run meaning results nodes activation).run state = .ok result := by
  induction nodes generalizing known past activation state with
  | nil => exact absurd arranged id
  | cons node rest ih =>
      obtain ⟨reads, closedRest⟩ := closed
      have totalRest := fun other member => total other (List.mem_cons_of_mem _ member)
      obtain ⟨operands, read⟩ := Instruction.exists_read fun input isInput =>
        bound input (reads input isInput)
      rcases node.op.cases_isInner with isInput | isOutput | inner
      · rw [Graph.arranged_cons_input isInput] at arranged
        rw [List.countP_cons, if_pos (by simp [isInput])] at enough
        rw [run_cons (Op.ne_output_of_isInput isInput), perform_input isInput, take]
        cases args : activation.supply.args with
        | nil => simp [args] at enough
        | cons value others =>
            rw [args, List.length_cons] at enough
            exact @ih _ _
              { activation.bind node.id value with
                supply := { activation.supply with args := others } }
              closedRest arranged.2 (bound_of_values bound rfl) (Nat.le_of_succ_le_succ enough)
              totalRest state
      · exact ⟨_, by rw [run_output isOutput, results, read]; rfl⟩
      · have available : ∃ operands, activation.operands node = .ok operands := by
          unfold Activation.operands
          split
          · exact ⟨_, rfl⟩
          · exact ⟨operands, read⟩
        obtain ⟨operands, available⟩ := available
        obtain ⟨⟨value, next⟩, stepped⟩ := total node List.mem_cons_self inner operands state
        rw [Graph.arranged_cons_inner inner] at arranged
        rw [List.countP_cons, if_neg (by simp [inner.1])] at enough
        obtain ⟨result, ran⟩ := @ih _ _ (activation.bind node.id value) closedRest arranged
          (bound_of_values bound rfl) enough totalRest next
        refine ⟨result, ?_⟩
        rw [run_cons inner.2, perform_step inner.1, available, Effect.ofExcept_ok, pure_bind,
          bind_assoc]
        simp only [pure_bind]
        exact Effect.run_bind_eq_ok.mpr ⟨value, next, stepped, ran⟩

end Activation

namespace Scan

variable {σ V : Type} {rules : Rules} {submodules : Forest} {evaluator : Evaluator σ V}

/-- A visit keeps what the graph evaluates to. -/
theorem Stage.evaluate_visit {scan next : Scan} {node : Node} (stage : scan.Stage rules submodules)
    (found : scan.graph.nodes[scan.cursor]? = some node)
    (visit : Visit rules submodules scan node next) (respects : evaluator.Respects rules)
    (supply : Operands V) (state : σ) :
    (Activation.run (evaluator.meaning (evaluator.call rules submodules) "") Activation.results
        next.graph.nodes { supply }).run state =
      (Activation.run (evaluator.meaning (evaluator.call rules submodules) "") Activation.results
        scan.graph.nodes { supply }).run state := by
  rcases stage.nodes_visit found visit with
    same | ⟨before, added, after, final, value, split, inner, exchange, spliced, nodes⟩
  · rw [same]
  · rw [nodes, split]
    refine (Activation.run_splice spliced (split ▸ stage.valid) inner ?_ state).symm
    intro activation covers
    exact exchange.perform stage.wellFormed split stage.valid respects covers

/-- A visit keeps the number of inputs. -/
theorem Stage.countP_visit {scan next : Scan} {node : Node} (stage : scan.Stage rules submodules)
    (found : scan.graph.nodes[scan.cursor]? = some node)
    (visit : Visit rules submodules scan node next) :
    next.graph.nodes.countP (fun node => node.op = .placeholder) =
      scan.graph.nodes.countP (fun node => node.op = .placeholder) := by
  rcases stage.nodes_visit found visit with
    same | ⟨before, added, after, final, value, split, inner, -, spliced, nodes⟩
  · rw [same]
  · have noInputs : added.countP (fun node => node.op = .placeholder) = 0 :=
      List.countP_eq_zero.mpr fun other member => by simp [(spliced.inner other member).1]
    have redirected : (after.map (Node.redirect node.id value)).countP
        (fun node => node.op = .placeholder) =
          after.countP (fun node => node.op = .placeholder) := by
      rw [List.countP_map]
      rfl
    rw [nodes, split, List.countP_append, List.countP_append, noInputs, redirected,
      List.countP_append, List.countP_cons, if_neg (by simp [inner.1])]
    rfl

/-- When no node is ahead, no operation gets stuck. -/
theorem Stage.exists_meaning {scan : Scan} (stage : scan.Stage rules submodules)
    (noneAhead : scan.graph.nodes[scan.cursor]? = none) :
    ∀ node ∈ scan.graph.nodes, node.op.IsInner → ∀ operands state,
      ∃ result,
        (evaluator.meaning (evaluator.call rules submodules) "" node.op operands).run state =
          .ok result := by
  intro node member inner operands state
  cases op : node.op with
  | placeholder => exact absurd op inner.1
  | output => exact absurd op inner.2
  | getAttr | callFunction | callMethod => exact ⟨_, rfl⟩
  | callModule path =>
      have all : scan.graph.nodes.take scan.cursor = scan.graph.nodes :=
        List.take_of_length_le (List.getElem?_eq_none_iff.mp noneAhead)
      have normal := stage.normal node (all.symm ▸ member)
      rw [op] at normal
      obtain ⟨submodule, found, isOpaque⟩ := normal
      have called : evaluator.call rules submodules path operands =
          .ofTotal (evaluator.callOpaque path operands) := by
        rw [Evaluator.call, found]
        exact if_pos isOpaque
      exact ⟨_, congrArg (fun effect => StateT.run effect state) called⟩

end Scan

/-- Normalization changes neither the results of a program nor the final state, whatever the steps
do, for all arguments and states; and with enough arguments there are results. -/
theorem normalization_preserves_evaluation {σ V : Type} {rules : Rules} {program : Program}
    {graph : Graph} {evaluator : Evaluator σ V} (wellFormed : program.graph.WellFormed)
    (valid : program.graph.validate = .ok ()) (respects : evaluator.Respects rules)
    (success : (normalize rules program).outcome = .ok graph) (supply : Operands V) (state : σ) :
    (({ program with graph }).evaluate rules evaluator supply).run state =
        (program.evaluate rules evaluator supply).run state ∧
      (program.graph.placeholders.length ≤ supply.args.length →
        ∃ result, (program.evaluate rules evaluator supply).run state = .ok result) := by
  have initial := Graph.validate_eq_ok_iff.mp valid
  obtain ⟨last, ⟨same, inputs⟩, stage, rfl, noneAhead⟩ := @normalize_induction rules program
    (fun scan =>
      (Activation.run (evaluator.meaning (evaluator.call rules program.submodules) "")
          Activation.results scan.graph.nodes { supply }).run state =
        (program.evaluate rules evaluator supply).run state ∧
      scan.graph.nodes.countP (fun node => node.op = .placeholder) =
        program.graph.nodes.countP (fun node => node.op = .placeholder))
    (fun scan node next holds stage found visit =>
      ⟨(stage.evaluate_visit found visit respects supply state).trans holds.1,
        (stage.countP_visit found visit).trans holds.2⟩)
    graph wellFormed initial ⟨rfl, rfl⟩ success
  refine ⟨same, fun enough => ?_⟩
  rw [← same]
  refine Activation.exists_run stage.valid.closed stage.valid.arranged
    (fun id impossible => absurd impossible (Set.notMem_empty id)) ?_
    (stage.exists_meaning noneAhead) state
  rw [inputs, List.countP_eq_length_filter]
  rw [Graph.placeholders, List.length_map] at enough
  exact enough

/-- Every step is noted in the state. -/
def noting : Evaluator (List String) Nat where
  readAttribute path := do
    modify (path :: ·)
    return .ref path.length
  callFunction function operands := do
    modify (function.path :: ·)
    return .tuple (.ref function.path.length :: operands.args)
  callMethod method operands := do
    modify (("torch." ++ method) :: ·)
    return .tuple (.ref ("torch." ++ method).length :: operands.args)
  callOpaque path operands := do
    modify (path :: ·)
    return .tuple operands.args

theorem scaledRelu_preserves_evaluation :
    ∃ graph result, (normalize reluRules scaledRelu).outcome = .ok graph ∧
      (({ scaledRelu with graph }).evaluate reluRules noting ⟨[.ref 3], ∅⟩).run [] = .ok result ∧
        (scaledRelu.evaluate reluRules noting ⟨[.ref 3], ∅⟩).run [] = .ok result := by
  have respects : noting.Respects reluRules := by
    constructor
    · intro method function listed
      have found : (Std.ExtTreeMap.insert ∅ "relu" ⟨"torch.relu"⟩ :
        Std.ExtTreeMap String FunctionPath)[method]? = some function := listed
      rw [Std.ExtTreeMap.getElem?_insert] at found
      split at found
      · next same =>
        obtain rfl := Option.some.inj found
        obtain rfl := Std.LawfulEqOrd.eq_of_compare same
        rfl
      · cases found
    · exact fun function replacement listed => by cases listed
  obtain ⟨graph, success⟩ := exists_normalize_scaledRelu
  obtain ⟨same, completes⟩ := normalization_preserves_evaluation ⟨by decide, by decide⟩ (by decide)
    respects success ⟨[.ref 3], ∅⟩ []
  obtain ⟨result, evaluated⟩ := completes (by decide)
  exact ⟨graph, result, success, same.trans evaluated, evaluated⟩

end OpGraph
