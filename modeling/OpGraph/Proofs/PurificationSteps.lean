import OpGraph.Proofs.NormalizationSteps
import OpGraph.Purification

/-!
# The steps of purification

Which form a call gets depends on its keyword arguments first, then on its function, and on what
the tracer recorded (`PureForm.Suits`).  A visit copies a node, binds a folded attribute read to a
literal, or emits the form of a call (`Purifier.Step`).  Where counting plays no part, a visit is
described by what it does to the new graph and to the environment (`Purifier.Visit`).  Journals
play no part at all.
-/

namespace OpGraph

namespace Report

variable {α β : Type}

/-- What holds at the start and is kept by every step of a fold holds at its end. -/
theorem foldlM_induction {step : β → α → Report β} {motive : List α → β → Prop} {items : List α}
    (keeps : ∀ visited item rest state next, items = visited ++ item :: rest →
      motive visited state → (step state item).outcome = .ok next → motive (visited ++ [item]) next)
    {start final : β} (initial : motive [] start)
    (completed : (items.foldlM step start).outcome = .ok final) : motive items final := by
  have general : ∀ visited rest state, items = visited ++ rest → motive visited state →
      (rest.foldlM step state).outcome = .ok final → motive items final := by
    intro visited rest
    induction rest generalizing visited with
    | nil =>
        intro state split holds success
        obtain rfl := Except.ok.inj success
        rw [split, List.append_nil]
        exact holds
    | cons item rest ih =>
        intro state split holds success
        rw [List.foldlM_cons, outcome_bind] at success
        obtain ⟨next, stepped, remaining⟩ := Outcome.bind_eq_ok.mp success
        refine ih (visited ++ [item]) next ?_
          (keeps visited item rest state next split holds stepped)
          remaining
        rw [split, List.append_assoc, List.singleton_append]
  exact general [] items start rfl initial completed

end Report

namespace Env

/-- Bind those of some nodes that have a value to another one. -/
def rebindAll (env : Env) (targets : List NodeId) (value : Arg) : Env :=
  targets.foldl (fun env target => if env.contains target then env.insert target value else env) env

theorem Within.rebindAll {env : Env} {known larger : Set NodeId} {value : Arg}
    (within : env.Within known) (subset : known ⊆ larger)
    (inside : ∀ target ∈ value.refs, target ∈ larger) (targets : List NodeId) :
    (env.rebindAll targets value).Within larger := by
  induction targets generalizing env known with
  | nil => exact fun id bound found target isRef => subset (within id bound found target isRef)
  | cons target rest ih =>
      show Within (Env.rebindAll (if env.contains target then _ else _) rest value) larger
      split
      · exact ih (within.insert subset inside target) subset_rfl
      · exact ih within subset

theorem getElem?_rebindAll (env : Env) (targets : List NodeId) (value : Arg) (id : NodeId) :
    (env.rebindAll targets value)[id]? =
      if id ∈ targets ∧ env.contains id = true then some value else env[id]? := by
  induction targets generalizing env with
  | nil => simp [rebindAll]
  | cons target rest ih =>
      show (Env.rebindAll (if env.contains target then _ else _) rest value)[id]? = _
      rw [ih]
      by_cases bound : env.contains target = true
      · rw [if_pos bound]
        by_cases same : id = target
        · subst same
          simp [bound]
        · simp [Std.ExtTreeMap.getElem?_insert, Std.ExtTreeMap.contains_insert, same,
            Ne.symm same]
      · rw [if_neg bound]
        by_cases same : id = target
        · subst same
          simp [bound]
        · simp [same]

theorem contains_rebindAll (env : Env) (targets : List NodeId) (value : Arg) (id : NodeId) :
    (env.rebindAll targets value).contains id = env.contains id := by
  rw [Std.ExtTreeMap.contains_eq_isSome_getElem?, getElem?_rebindAll,
    Std.ExtTreeMap.contains_eq_isSome_getElem?]
  split
  · next changed => exact changed.2.symm
  · rfl

end Env

namespace PureForm

/-- The operation of the form of a call, the keyword argument that it drops, the nodes that the call
changes, and whether the form changes nothing. -/
inductive Suits (rules : Rules) (node : Node) (info : ValueInfo) :
    Op → Option String → List NodeId → Bool → Prop where
  /-- A call with a flag goes without the flag. -/
  | flagged {flag : Arg} (isTensor : info.isTensor = true)
      (inside : info.isInputMutation = false)
      (found : node.kwargs[Rules.inplaceKeyword]? = some flag) :
      Suits rules node info node.op (some Rules.inplaceKeyword)
        (if flag.truth? = some true then node.firstRef?.toList else []) true
  /-- A call with a receiver goes without the receiver. -/
  | received {receiver : Arg} (isTensor : info.isTensor = true)
      (inside : info.isInputMutation = false)
      (noFlag : node.kwargs[Rules.inplaceKeyword]? = none)
      (found : node.kwargs[Rules.outKeyword]? = some receiver) :
      Suits rules node info node.op (some Rules.outKeyword) receiver.asRef?.toList true
  /-- A function that changes its first argument gives way to the pure one behind it. -/
  | variant {function : FunctionPath} (isTensor : info.isTensor = true)
      (inside : info.isInputMutation = false)
      (noFlag : node.kwargs[Rules.inplaceKeyword]? = none)
      (noReceiver : node.kwargs[Rules.outKeyword]? = none)
      (found : node.op.function?.bind rules.pureVariant? = some function) :
      Suits rules node info (.callFunction function) none node.firstRef?.toList true
  /-- An operator gives way to the tensor function behind it. -/
  | operator {function replacement : FunctionPath} (isTensor : info.isTensor = true)
      (inside : info.isInputMutation = false)
      (noFlag : node.kwargs[Rules.inplaceKeyword]? = none)
      (noReceiver : node.kwargs[Rules.outKeyword]? = none)
      (noVariant : node.op.function?.bind rules.pureVariant? = none)
      (isFunction : node.op = .callFunction function)
      (found : rules.operatorFunctions[function]? = some replacement) :
      Suits rules node info (.callFunction replacement) none [] (!info.isMutation)
  /-- Any other call of a tensor keeps its operation. -/
  | remaining (isTensor : info.isTensor = true) (inside : info.isInputMutation = false)
      (noFlag : node.kwargs[Rules.inplaceKeyword]? = none)
      (noReceiver : node.kwargs[Rules.outKeyword]? = none)
      (noVariant : node.op.function?.bind rules.pureVariant? = none) :
      Suits rules node info node.op none [] (!info.isMutation)
  /-- A call that changes an input of the graph, or whose value is no tensor, stays as it is. -/
  | other (outside : (info.isTensor && !info.isInputMutation) = false) :
      Suits rules node info node.op none [] false

theorem Suits.isCall {rules : Rules} {node : Node} {info : ValueInfo} {op : Op}
    {dropped : Option String} {changed : List NodeId} {isPure : Bool}
    (suits : Suits rules node info op dropped changed isPure) (isCall : node.op.isCall = true) :
    op.isCall = true := by
  cases suits with
  | variant | operator => rfl
  | flagged | received | remaining | other => exact isCall

/-- An operator gets its function or stays, and nothing else about the form is decided here. -/
theorem ofOperator_eq_ok {rules : Rules} {submodules : Forest} {node : Node} {form : PureForm}
    (success : (ofOperator rules submodules node).outcome = .ok form) :
    form.dropped = none ∧ form.changed = [] ∧ form.isPure = true ∧
      (form.op = node.op ∨ ∃ function replacement, node.op = .callFunction function ∧
        rules.operatorFunctions[function]? = some replacement ∧
          form.op = .callFunction replacement) := by
  unfold ofOperator at success
  split at success
  · next function isFunction =>
    split at success
    · next replacement listed =>
      split at success
      · simp only [Report.outcome_bind, Report.outcome_note, Report.outcome_ofExcept,
          Report.outcome_pure] at success
        obtain ⟨_, _, named⟩ := Outcome.bind_eq_ok.mp success
        obtain ⟨_, _, same⟩ := Outcome.bind_eq_ok.mp named
        obtain rfl := Except.ok.inj same
        exact ⟨rfl, rfl, rfl, Or.inl rfl⟩
      · obtain rfl := Except.ok.inj success
        exact ⟨rfl, rfl, rfl, Or.inr ⟨function, replacement, isFunction, listed, rfl⟩⟩
    · obtain rfl := Except.ok.inj success
      exact ⟨rfl, rfl, rfl, Or.inl rfl⟩
  · obtain rfl := Except.ok.inj success
    exact ⟨rfl, rfl, rfl, Or.inl rfl⟩

theorem ofRemaining_eq_ok {rules : Rules} {submodules : Forest} {node : Node} {info : ValueInfo}
    {form : PureForm} (success : (ofRemaining rules submodules node info).outcome = .ok form) :
    form.dropped = none ∧ form.changed = [] ∧ form.isPure = (!info.isMutation) ∧
      (form.op = node.op ∨ ∃ function replacement, node.op = .callFunction function ∧
        rules.operatorFunctions[function]? = some replacement ∧
          form.op = .callFunction replacement) := by
  simp only [ofRemaining, Report.outcome_bind] at success
  obtain ⟨base, found, rest⟩ := Outcome.bind_eq_ok.mp success
  obtain ⟨dropped, changed, isPure, op⟩ := ofOperator_eq_ok found
  split at rest
  · next isMutation =>
    simp only [Report.outcome_bind, Report.outcome_ofExcept, Report.outcome_pure] at rest
    obtain ⟨_, _, same⟩ := Outcome.bind_eq_ok.mp rest
    obtain rfl := Except.ok.inj same
    exact ⟨dropped, changed, by rw [isMutation]; rfl, op⟩
  · next noMutation =>
    obtain rfl := Except.ok.inj rest
    refine ⟨dropped, changed, ?_, op⟩
    rw [isPure, Bool.eq_false_of_not_eq_true noMutation]
    rfl

theorem suits_of_ofCall {rules : Rules} {submodules : Forest} {node : Node} {info : ValueInfo}
    {form : PureForm} (success : (ofCall rules submodules node info).outcome = .ok form) :
    Suits rules node info form.op form.dropped form.changed form.isPure := by
  unfold ofCall at success
  split at success
  · next condition =>
    obtain ⟨isTensor, noInput⟩ := (Bool.and_eq_true _ _).mp condition
    have inside : info.isInputMutation = false := by simpa using noInput
    unfold ofTensor at success
    split at success
    · next flag _ found =>
      obtain rfl := Except.ok.inj success
      exact .flagged isTensor inside found
    · next receiver noFlag found =>
      obtain rfl := Except.ok.inj success
      exact .received isTensor inside noFlag found
    · next noFlag noReceiver =>
      split at success
      · next function found =>
        obtain rfl := Except.ok.inj success
        exact .variant isTensor inside noFlag noReceiver found
      · next noVariant =>
        obtain ⟨dropped, changed, isPure, op⟩ := ofRemaining_eq_ok success
        rw [dropped, changed, isPure]
        rcases op with same | ⟨function, replacement, isFunction, listed, new⟩
        · rw [same]
          exact .remaining isTensor inside noFlag noReceiver noVariant
        · rw [new]
          exact .operator isTensor inside noFlag noReceiver noVariant isFunction listed
  · next condition =>
    have outside := Bool.eq_false_of_not_eq_true condition
    simp only [ofOther] at success
    split at success
    · simp only [Report.outcome_bind, Report.outcome_ofExcept, Report.outcome_pure] at success
      obtain ⟨_, _, same⟩ := Outcome.bind_eq_ok.mp success
      obtain rfl := Except.ok.inj same
      exact .other outside
    · obtain rfl := Except.ok.inj success
      exact .other outside

end PureForm

namespace Purifier

/-- The call that stands for a call in the new graph. -/
def pureCall (info : ValueInfo) (form : PureForm) (args : List Arg) (kwargs : Kwargs NodeId) :
    Instruction :=
  { op := form.op
    args
    kwargs
    info := some (if form.isPure then { info with isMutation := false } else info) }

/-- The call that stands for a call, with the arguments of the source. -/
def sourceCall (info : ValueInfo) (form : PureForm) (node : Node) : Instruction :=
  pureCall info form node.args (form.keptKwargs node.kwargs)

theorem traverse_sourceCall {env : Env} {node : Node} {form : PureForm} {args : List Arg}
    {kwargs : Kwargs NodeId} (info : ValueInfo)
    (foundArgs : Argument.traverseAll env.value node.args = .ok args)
    (foundKwargs : Kwargs.traverse env.value (form.keptKwargs node.kwargs) = .ok kwargs) :
    (sourceCall info form node).traverse env.value = .ok (pureCall info form args kwargs) :=
  Outcome.bind_eq_ok.mpr ⟨args, foundArgs, Outcome.bind_eq_ok.mpr ⟨kwargs, foundKwargs, rfl⟩⟩

/-- What a visit of a node does to a purification in progress. -/
inductive Step (rules : Rules) (program : Program) (node : Node) (purifier : Purifier) :
    Purifier → Prop where
  /-- A node that is no call is copied. -/
  | copied {instruction : Instruction} (noCall : node.op.isCall = false)
      (found : node.toInstruction.traverse purifier.env.value = .ok instruction) :
      Step rules program node purifier
        { purifier with
          graph := purifier.graph.emit instruction node.copyHint
          env := purifier.env.insert node.id (.ref purifier.graph.nextId) }
  /-- An attribute read becomes a literal. -/
  | folded {info : ValueInfo} {form : PureForm} {read : AttributeRead} {value : Arg}
      (isCall : node.op.isCall = true) (hasInfo : node.info = some info)
      (formed : (PureForm.ofCall rules program.submodules node info).outcome = .ok form)
      (isRead : form.op = .callFunction .getAttribute)
      (reading : (AttributeRead.ofCall program.graph node).outcome = .ok read)
      (found : read.value = some value) :
      Step rules program node purifier
        ((purifier.count (form.counted ++ read.counted)).bind node.id value)
  /-- Any other call is made in its pure form. -/
  | called {info : ValueInfo} {form : PureForm} {read : AttributeRead} {extra : List TallyKey}
      {args : List Arg} {kwargs : Kwargs NodeId} (isCall : node.op.isCall = true)
      (hasInfo : node.info = some info)
      (formed : (PureForm.ofCall rules program.submodules node info).outcome = .ok form)
      (reading : (if form.op = .callFunction .getAttribute then
        AttributeRead.ofCall program.graph node else pure {}).outcome = .ok read)
      (unread : read.value = none)
      (naming : (if info.isTensor then .ok []
        else (fun name => [⟨.nontensor, name⟩]) <$> node.longName rules program.submodules) =
          .ok extra)
      (foundArgs : Argument.traverseAll purifier.env.value node.args = .ok args)
      (foundKwargs :
        Kwargs.traverse purifier.env.value (form.keptKwargs node.kwargs) = .ok kwargs) :
      Step rules program node purifier
        { purifier.count (form.counted ++ read.counted ++ extra) with
          graph := purifier.graph.emit (pureCall info form args kwargs) none
          env := (purifier.env.rebindAll form.changed (.ref purifier.graph.nextId)).insert node.id
            (.ref purifier.graph.nextId) }

/-- Binding changed nodes always succeeds and touches the environment only. -/
theorem outcome_foldlM_rebind (name result : String) (value : Arg) (targets : List NodeId)
    (purifier : Purifier) :
    (targets.foldlM (rebind name result value) purifier).outcome =
      .ok { purifier with env := purifier.env.rebindAll targets value } := by
  induction targets generalizing purifier with
  | nil => rfl
  | cons target rest ih =>
      rw [List.foldlM_cons, Report.outcome_bind, rebind, Env.rebindAll, List.foldl_cons]
      split
      · exact ih _
      · exact ih _

theorem count_count (purifier : Purifier) (first second : List TallyKey) :
    (purifier.count first).count second = purifier.count (first ++ second) := by
  simp only [count, List.foldl_append]

/-- Making a call emits its pure form and binds the changed nodes and the call to it. -/
theorem outcome_emitCall (purifier : Purifier) (node : Node) (info : ValueInfo) (form : PureForm) :
    (purifier.emitCall node info form).outcome = (do
      let args ← Argument.traverseAll purifier.env.value node.args
      let kwargs ← Kwargs.traverse purifier.env.value (form.keptKwargs node.kwargs)
      pure { purifier with
        graph := purifier.graph.emit (pureCall info form args kwargs) none
        env := (purifier.env.rebindAll form.changed (.ref purifier.graph.nextId)).insert node.id
          (.ref purifier.graph.nextId) }) := by
  simp only [emitCall, Report.outcome_bind, Report.outcome_ofExcept]
  congr 1
  funext args
  congr 1
  funext kwargs
  split
  · simp only [Report.outcome_bind, outcome_foldlM_rebind]
    rfl
  · simp only [Report.outcome_bind, outcome_foldlM_rebind]
    rfl

theorem emitCall_eq_ok {purifier next : Purifier} {node : Node} {info : ValueInfo} {form : PureForm}
    (success : (purifier.emitCall node info form).outcome = .ok next) :
    ∃ args kwargs, Argument.traverseAll purifier.env.value node.args = .ok args ∧
      Kwargs.traverse purifier.env.value (form.keptKwargs node.kwargs) = .ok kwargs ∧
        next = { purifier with
          graph := purifier.graph.emit (pureCall info form args kwargs) none
          env := (purifier.env.rebindAll form.changed (.ref purifier.graph.nextId)).insert node.id
            (.ref purifier.graph.nextId) } := by
  rw [outcome_emitCall] at success
  obtain ⟨args, foundArgs, success⟩ := Outcome.bind_eq_ok.mp success
  obtain ⟨kwargs, foundKwargs, success⟩ := Outcome.bind_eq_ok.mp success
  exact ⟨args, kwargs, foundArgs, foundKwargs, (Except.ok.inj success).symm⟩

/-- A call whose value is no tensor is counted before it is made. -/
theorem emitCounted_eq_ok {purifier next : Purifier} {node : Node} {info : ValueInfo}
    {form : PureForm} {keys : List TallyKey} {naming : Except Failure String}
    (success : (if info.isTensor then (purifier.count keys).emitCall node info form
      else do
        let name ← Report.ofExcept naming
        (purifier.count (keys ++ [⟨.nontensor, name⟩])).emitCall node info form).outcome =
          .ok next) :
    ∃ extra, (if info.isTensor then .ok [] else (fun name => [⟨.nontensor, name⟩]) <$> naming) =
        .ok extra ∧
      ((purifier.count (keys ++ extra)).emitCall node info form).outcome = .ok next := by
  split at success
  · next isTensor =>
    refine ⟨[], if_pos isTensor, ?_⟩
    rw [List.append_nil]
    exact success
  · next noTensor =>
    rw [Report.outcome_bind] at success
    obtain ⟨name, named, emitted⟩ := Outcome.bind_eq_ok.mp success
    refine ⟨[⟨.nontensor, name⟩], ?_, emitted⟩
    rw [if_neg noTensor]
    exact Outcome.map_eq_ok.mpr ⟨name, named, rfl⟩

theorem step_of_visitCall {rules : Rules} {program : Program} {purifier next : Purifier}
    {node : Node} (isCall : node.op.isCall = true)
    (success : (purifier.visitCall rules program node).outcome = .ok next) :
    Step rules program node purifier next := by
  simp only [visitCall, Report.outcome_bind, Report.outcome_ofExcept, count_count] at success
  obtain ⟨info, got, success⟩ := Outcome.bind_eq_ok.mp success
  obtain ⟨form, formed, success⟩ := Outcome.bind_eq_ok.mp success
  have hasInfo : node.info = some info := by
    unfold Node.infoFor at got
    split at got
    · next found => rw [found, Except.ok.inj got]
    · cases got
  split at success
  · next isRead =>
    rw [Report.outcome_bind] at success
    obtain ⟨read, reading, success⟩ := Outcome.bind_eq_ok.mp success
    split at success
    · next value found =>
      obtain rfl := Except.ok.inj success
      exact .folded isCall hasInfo formed isRead reading found
    · next unread =>
      obtain ⟨extra, naming, emitted⟩ := emitCounted_eq_ok success
      obtain ⟨args, kwargs, foundArgs, foundKwargs, rfl⟩ := emitCall_eq_ok emitted
      refine .called isCall hasInfo formed ?_ unread naming foundArgs foundKwargs
      rw [if_pos isRead]
      exact reading
  · next noRead =>
    obtain ⟨extra, naming, emitted⟩ := emitCounted_eq_ok success
    obtain ⟨args, kwargs, foundArgs, foundKwargs, rfl⟩ := emitCall_eq_ok emitted
    refine .called isCall hasInfo formed ?_ rfl naming foundArgs foundKwargs
    rw [if_neg noRead]
    rfl

theorem step_of_eq_ok {rules : Rules} {program : Program} {purifier next : Purifier} {node : Node}
    (success : (purifier.visit rules program node).outcome = .ok next) :
    Step rules program node purifier next := by
  unfold visit at success
  split at success
  · next isCall => exact step_of_visitCall isCall success
  · next noCall =>
    rw [Report.outcome_ofExcept] at success
    obtain ⟨graph, copied, same⟩ := Outcome.bind_eq_ok.mp success
    obtain rfl := Except.ok.inj same
    obtain ⟨instruction, found, emitted⟩ := Outcome.bind_eq_ok.mp copied
    obtain rfl := Except.ok.inj emitted
    exact .copied (Bool.eq_false_of_not_eq_true noCall) found

/-- What a visit of a node does to the new graph and to the environment. -/
inductive Visit (rules : Rules) (node : Node) (graph : Graph) (env : Env) :
    Graph → Env → Prop where
  /-- A node that is no call is copied. -/
  | copied {instruction : Instruction} (noCall : node.op.isCall = false)
      (found : node.toInstruction.traverse env.value = .ok instruction) :
      Visit rules node graph env (graph.emit instruction node.copyHint)
        (env.insert node.id (.ref graph.nextId))
  /-- An attribute read becomes a literal. -/
  | folded {info : ValueInfo} {form : PureForm} {text : String} (isCall : node.op.isCall = true)
      (hasInfo : node.info = some info)
      (suits : PureForm.Suits rules node info form.op form.dropped form.changed form.isPure)
      (isRead : form.op = .callFunction .getAttribute) :
      Visit rules node graph env graph (env.insert node.id (.literal (.text text)))
  /-- Any other call is made in its pure form. -/
  | called {info : ValueInfo} {form : PureForm} {args : List Arg} {kwargs : Kwargs NodeId}
      (isCall : node.op.isCall = true) (hasInfo : node.info = some info)
      (suits : PureForm.Suits rules node info form.op form.dropped form.changed form.isPure)
      (foundArgs : Argument.traverseAll env.value node.args = .ok args)
      (foundKwargs : Kwargs.traverse env.value (form.keptKwargs node.kwargs) = .ok kwargs) :
      Visit rules node graph env (graph.emit (pureCall info form args kwargs) none)
        ((env.rebindAll form.changed (.ref graph.nextId)).insert node.id (.ref graph.nextId))

/-- The value that a read is folded to is a text. -/
theorem value_of_ofCall {graph : Graph} {node : Node} {read : AttributeRead} {value : Arg}
    (success : (AttributeRead.ofCall graph node).outcome = .ok read)
    (found : read.value = some value) : ∃ text : String, value = .literal (.text text) := by
  unfold AttributeRead.ofCall at success
  split at success
  · obtain rfl := Except.ok.inj success
    cases found
  · split at success
    · simp only [Report.outcome_bind, Report.outcome_ofExcept] at success
      obtain ⟨_, _, success⟩ := Outcome.bind_eq_ok.mp success
      obtain ⟨_, _, success⟩ := Outcome.bind_eq_ok.mp success
      split at success
      · next text _ =>
        simp only [Report.outcome_bind, Report.outcome_note, Report.outcome_pure] at success
        obtain ⟨_, _, success⟩ := Outcome.bind_eq_ok.mp success
        obtain rfl := Except.ok.inj success
        exact ⟨text, (Option.some.inj found).symm⟩
      · cases success
    · obtain rfl := Except.ok.inj success
      cases found

/-- Without what is counted, a step is a visit. -/
theorem Step.visit {rules : Rules} {program : Program} {purifier next : Purifier} {node : Node}
    (step : Step rules program node purifier next) :
    Visit rules node purifier.graph purifier.env next.graph next.env := by
  cases step with
  | copied noCall found => exact .copied noCall found
  | folded isCall hasInfo formed isRead reading found =>
      obtain ⟨text, rfl⟩ := value_of_ofCall reading found
      exact .folded isCall hasInfo (PureForm.suits_of_ofCall formed) isRead
  | called isCall hasInfo formed _ _ _ foundArgs foundKwargs =>
      exact .called isCall hasInfo (PureForm.suits_of_ofCall formed) foundArgs foundKwargs

end Purifier

/-- What holds at the start and is kept by every step holds when a purification is complete. -/
theorem purify_induction_steps {rules : Rules} {program : Program}
    {motive : List Node → Purifier → Prop}
    (step : ∀ visited node rest purifier next, program.graph.nodes = visited ++ node :: rest →
      motive visited purifier → Purifier.Step rules program node purifier next →
        motive (visited ++ [node]) next)
    {graph : Graph} {tally : Tally} (initial : motive [] {})
    (success : (purify rules program).outcome = .ok (graph, tally)) :
    ∃ env, motive program.graph.nodes ⟨graph, env, tally⟩ := by
  simp only [purify, Report.outcome_bind, Report.outcome_note, Report.outcome_pure] at success
  obtain ⟨purifier, completed, success⟩ := Outcome.bind_eq_ok.mp success
  obtain ⟨rfl, rfl⟩ := Prod.mk.inj (Except.ok.inj success)
  exact ⟨purifier.env, Report.foldlM_induction
    (fun visited node rest state next split holds visit =>
      step visited node rest state next split holds (Purifier.step_of_eq_ok visit))
    initial completed⟩

/-- What holds of an empty graph and is kept by every visit holds of a purified graph. -/
theorem purify_induction {rules : Rules} {program : Program}
    {motive : List Node → Graph → Env → Prop}
    (step : ∀ visited node rest graph env nextGraph nextEnv,
      program.graph.nodes = visited ++ node :: rest → motive visited graph env →
        Purifier.Visit rules node graph env nextGraph nextEnv →
          motive (visited ++ [node]) nextGraph nextEnv)
    {graph : Graph} {tally : Tally} (initial : motive [] {} ∅)
    (success : (purify rules program).outcome = .ok (graph, tally)) :
    ∃ env, motive program.graph.nodes graph env :=
  @purify_induction_steps rules program
    (fun visited purifier => motive visited purifier.graph purifier.env)
    (fun visited node rest _ _ split holds taken =>
      step visited node rest _ _ _ _ split holds taken.visit)
    graph tally initial success

end OpGraph
