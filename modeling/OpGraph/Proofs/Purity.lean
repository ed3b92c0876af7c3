import OpGraph.Proofs.Counting
import OpGraph.Proofs.PurificationMeaning

/-!
# What purification leaves behind

A call can ask for work in place in three ways: by a flag, by a receiver, and by its function.
Purification looks at them in this order and answers the first one only.  So the pure form of a call
is clean exactly if the call asks in at most one way (`PureForm.Suits.clean_iff`), and a purified
graph is clean exactly if every call of the source does, reads that become literals apart.

A call that keeps the mark of the tracer is counted.
-/

namespace OpGraph

/-! ### Calls that purification looks at -/

namespace Instruction

/-- The value is a tensor, and the tracer saw no change of an input of the graph. -/
def isLocalTensor (instruction : Instruction) : Bool :=
  match instruction.info with
  | some info => info.isTensor && !info.isInputMutation
  | none => false

/-- Whether a call asks for work in place by a flag, by a receiver, and by its function. -/
def requests (rules : Rules) (instruction : Instruction) : List Bool :=
  [instruction.kwargs.contains Rules.inplaceKeyword,
    instruction.kwargs.contains Rules.outKeyword, instruction.isVariant rules]

/-- A call has no receiver, no true flag, and no function that changes its first argument. -/
structure Clean (rules : Rules) (instruction : Instruction) : Prop where
  noReceiver : instruction.kwargs.contains Rules.outKeyword = false
  noFlag : instruction.isFlagged = false
  noVariant : instruction.isVariant rules = false

/-- The operation of the pure form of a call of a function that changes nothing. -/
def tensorOp (rules : Rules) (function : FunctionPath) (args : List Arg) : Op :=
  match rules.operatorFunctions[function]? with
  | some image =>
    if PureForm.isScalarDivision function args then .callFunction function
    else .callFunction image
  | none => .callFunction function

/-- The operation of the pure form of a call. -/
def pureOp (rules : Rules) (instruction : Instruction) : Op :=
  match instruction.kwargs[Rules.inplaceKeyword]?, instruction.kwargs[Rules.outKeyword]?,
      instruction.op with
  | none, none, .callFunction function =>
    match rules.pureVariant? function with
    | some image => .callFunction image
    | none => tensorOp rules function instruction.args
  | _, _, op => op

/-- A call reads an attribute of a node that the tracer records. -/
def namesRecord (instruction : Instruction) : Bool :=
  ((instruction.args[1]?.bind Argument.asText?).bind InfoField.ofAttribute?).isSome &&
    instruction.firstRef?.isSome

/-- The pure form of a call is the read of a recorded attribute, and becomes a literal. -/
def isRecordedRead (rules : Rules) (instruction : Instruction) : Bool :=
  instruction.pureOp rules = .callFunction .getAttribute && instruction.namesRecord

theorem isLocalTensor_eq {instruction : Instruction} {info : ValueInfo}
    (hasInfo : instruction.info = some info) :
    instruction.isLocalTensor = (info.isTensor && !info.isInputMutation) := by
  rw [isLocalTensor, hasInfo]

end Instruction

/-! ### What a form is and what it counts -/

namespace PureForm

variable {rules : Rules} {submodules : Forest} {node : Node} {info : ValueInfo} {form : PureForm}

theorem op_of_ofOperator {function : FunctionPath} (isFunction : node.op = .callFunction function)
    (success : (ofOperator rules submodules node).outcome = .ok form) :
    form.op = Instruction.tensorOp rules function node.args := by
  unfold Instruction.tensorOp
  rw [ofOperator, isFunction] at success
  dsimp only at success
  cases listed : rules.operatorFunctions[function]? with
  | none =>
      rw [listed] at success
      rw [← Except.ok.inj success]
  | some image =>
      rw [listed] at success
      dsimp only at success ⊢
      split at success
      · next scalar =>
        rw [if_pos scalar]
        simp only [Report.outcome_bind, Report.outcome_note, Report.outcome_ofExcept,
          Report.outcome_pure] at success
        obtain ⟨_, _, named⟩ := Outcome.bind_eq_ok.mp success
        obtain ⟨_, _, same⟩ := Outcome.bind_eq_ok.mp named
        rw [← Except.ok.inj same]
      · next noScalar =>
        rw [if_neg noScalar, ← Except.ok.inj success]

theorem op_of_ofRemaining (success : (ofRemaining rules submodules node info).outcome = .ok form) :
    ∃ base, (ofOperator rules submodules node).outcome = .ok base ∧ form.op = base.op := by
  simp only [ofRemaining, Report.outcome_bind] at success
  obtain ⟨base, found, rest⟩ := Outcome.bind_eq_ok.mp success
  refine ⟨base, found, ?_⟩
  split at rest
  · simp only [Report.outcome_bind, Report.outcome_ofExcept, Report.outcome_pure] at rest
    obtain ⟨_, _, same⟩ := Outcome.bind_eq_ok.mp rest
    rw [← Except.ok.inj same]
  · rw [← Except.ok.inj rest]

/-- The operation of a form is the pure operation of its call. -/
theorem op_of_ofCall (isLocal : (info.isTensor && !info.isInputMutation) = true)
    (success : (ofCall rules submodules node info).outcome = .ok form) :
    form.op = node.toInstruction.pureOp rules := by
  rw [ofCall, if_pos isLocal, ofTensor] at success
  unfold Instruction.pureOp
  cases flag : node.kwargs[Rules.inplaceKeyword]? with
  | some _ =>
      rw [flag] at success
      rw [← Except.ok.inj success]
  | none =>
      cases receiver : node.kwargs[Rules.outKeyword]? with
      | some _ =>
          rw [flag, receiver] at success
          rw [← Except.ok.inj success]
      | none =>
          rw [flag, receiver] at success
          dsimp only at success ⊢
          cases op : node.op with
          | callFunction function =>
              rw [op] at success
              dsimp only [Op.function?, Option.bind_some] at success ⊢
              cases variant : rules.pureVariant? function with
              | some image =>
                  rw [variant] at success
                  rw [← Except.ok.inj success]
              | none =>
                  rw [variant] at success
                  obtain ⟨base, found, same⟩ := op_of_ofRemaining success
                  rw [same, op_of_ofOperator op found]
          | placeholder | getAttr | callMethod | callModule | output =>
              rw [op] at success
              obtain ⟨base, found, same⟩ := op_of_ofRemaining success
              rw [ofOperator, op] at found
              rw [same, ← Except.ok.inj found]

/-- The keys among some that count a change which could not be removed. -/
def mutationKeys (keys : List TallyKey) : List TallyKey :=
  keys.filter fun key => key.category = .mutation

theorem mutationKeys_append (first second : List TallyKey) :
    mutationKeys (first ++ second) = mutationKeys first ++ mutationKeys second :=
  List.filter_append ..

theorem mutationKeys_of_ofOperator
    (success : (ofOperator rules submodules node).outcome = .ok form) :
    mutationKeys form.counted = [] := by
  unfold ofOperator at success
  split at success
  · split at success
    · split at success
      · simp only [Report.outcome_bind, Report.outcome_note, Report.outcome_ofExcept,
          Report.outcome_pure] at success
        obtain ⟨_, _, named⟩ := Outcome.bind_eq_ok.mp success
        obtain ⟨_, _, same⟩ := Outcome.bind_eq_ok.mp named
        rw [← Except.ok.inj same]
        rfl
      · rw [← Except.ok.inj success]
        rfl
    · rw [← Except.ok.inj success]
      rfl
  · rw [← Except.ok.inj success]
    rfl

/-- A form counts a change under the name of its call if it is one of a tensor and not pure, and
otherwise counts no change. -/
theorem mutationKeys_of_ofCall (success : (ofCall rules submodules node info).outcome = .ok form) :
    (mutationKeys form.counted = [] ∧
        ((info.isTensor && !info.isInputMutation) = true → form.isPure = true)) ∨
      ((info.isTensor && !info.isInputMutation) = true ∧ form.isPure = false ∧
        ∃ name, node.longName rules submodules = .ok name ∧
          mutationKeys form.counted = [⟨.mutation, name⟩]) := by
  unfold ofCall at success
  split at success
  · next isLocal =>
    unfold ofTensor at success
    split at success
    · rw [← Except.ok.inj success]
      exact Or.inl ⟨rfl, fun _ => rfl⟩
    · rw [← Except.ok.inj success]
      exact Or.inl ⟨rfl, fun _ => rfl⟩
    · split at success
      · rw [← Except.ok.inj success]
        exact Or.inl ⟨rfl, fun _ => rfl⟩
      · simp only [ofRemaining, Report.outcome_bind] at success
        obtain ⟨base, found, rest⟩ := Outcome.bind_eq_ok.mp success
        have none := mutationKeys_of_ofOperator found
        split at rest
        · simp only [Report.outcome_bind, Report.outcome_ofExcept, Report.outcome_pure] at rest
          obtain ⟨name, named, same⟩ := Outcome.bind_eq_ok.mp rest
          rw [← Except.ok.inj same]
          refine Or.inr ⟨isLocal, rfl, name, named, ?_⟩
          rw [mutationKeys_append, none]
          rfl
        · rw [← Except.ok.inj rest]
          exact Or.inl ⟨none, fun _ => (ofOperator_eq_ok found).2.2.1⟩
  · next notLocal =>
    refine Or.inl ⟨?_, fun isLocal => absurd isLocal notLocal⟩
    simp only [ofOther] at success
    split at success
    · simp only [Report.outcome_bind, Report.outcome_ofExcept, Report.outcome_pure] at success
      obtain ⟨_, _, same⟩ := Outcome.bind_eq_ok.mp success
      rw [← Except.ok.inj same]
      rfl
    · rw [← Except.ok.inj success]
      rfl

end PureForm

/-- A read has a value if it names a recorded attribute, and it counts no change. -/
theorem AttributeRead.of_ofCall {graph : Graph} {node : Node} {read : AttributeRead}
    (success : (AttributeRead.ofCall graph node).outcome = .ok read) :
    read.value.isSome = node.toInstruction.namesRecord ∧
      PureForm.mutationKeys read.counted = [] := by
  unfold AttributeRead.ofCall at success
  unfold Instruction.namesRecord
  split at success
  · next noText =>
    rw [← Except.ok.inj success, noText]
    exact ⟨rfl, rfl⟩
  · next attributeName text =>
    rw [text, Option.bind_some]
    split at success
    · next field target isField isTarget =>
      rw [isField, isTarget]
      simp only [Report.outcome_bind, Report.outcome_ofExcept] at success
      obtain ⟨_, _, success⟩ := Outcome.bind_eq_ok.mp success
      obtain ⟨_, _, success⟩ := Outcome.bind_eq_ok.mp success
      split at success
      · simp only [Report.outcome_bind, Report.outcome_note, Report.outcome_pure] at success
        obtain ⟨_, _, success⟩ := Outcome.bind_eq_ok.mp success
        rw [← Except.ok.inj success]
        exact ⟨rfl, rfl⟩
      · cases success
    · next lacking =>
      rw [← Except.ok.inj success]
      refine ⟨?_, rfl⟩
      cases isField : InfoField.ofAttribute? attributeName with
      | none => rfl
      | some field =>
          cases isTarget : node.firstRef? with
          | none => rfl
          | some target => exact absurd isTarget (lacking field target isField)

/-! ### The pure form of a call -/

/-- Requests after the first one has been answered. -/
def answerFirst : List Bool → List Bool
  | [] => []
  | true :: rest => false :: rest
  | false :: rest => false :: answerFirst rest

theorem count_answerFirst (requests : List Bool) :
    (answerFirst requests).count true = requests.count true - 1 := by
  induction requests with
  | nil => rfl
  | cons request rest ih =>
      cases request with
      | true => simp [answerFirst]
      | false => simpa [answerFirst] using ih

theorem head?_answerFirst_ne (requests : List Bool) : (answerFirst requests).head? ≠ some true := by
  cases requests with
  | nil => simp [answerFirst]
  | cons request rest => cases request <;> simp [answerFirst]

@[simp]
theorem Op.function?_callFunction (function : FunctionPath) :
    (Op.callFunction function).function? = some function := rfl

theorem Instruction.contains_of_traverse {image : NodeId → Except Failure Arg}
    {instruction result : Instruction} (found : instruction.traverse image = .ok result)
    (keyword : String) : result.kwargs.contains keyword = instruction.kwargs.contains keyword := by
  obtain ⟨-, rfl⟩ := traverse_eq_ok_iff.mp found
  show (instruction.kwargs.bind _).contains keyword = _
  rw [Std.ExtTreeMap.contains_eq_isSome_getElem?, Std.ExtTreeMap.contains_eq_isSome_getElem?,
    Kwargs.getElem?_bind, Option.isSome_map]

theorem Instruction.info_of_traverse {image : NodeId → Except Failure Arg}
    {instruction result : Instruction} (found : instruction.traverse image = .ok result) :
    result.info = instruction.info := by
  obtain ⟨-, rfl⟩ := traverse_eq_ok_iff.mp found
  rfl

namespace PureForm.Suits

variable {rules : Rules} {node : Node} {info : ValueInfo} {form : PureForm} {new : Instruction}
variable {image : NodeId → Except Failure Arg}

/-- The pure form of a tensor call keeps the mark of the tracer only if it is not pure. -/
theorem isMarked_eq (suits : Suits rules node info form.op form.dropped form.changed form.isPure)
    (isLocal : (info.isTensor && !info.isInputMutation) = true)
    (found : (Purifier.sourceCall info form node).traverse image = .ok new) :
    new.isMarked = !form.isPure := by
  have marked := isMarked_sourceCall info form node
  have same : new.isMarked = (Purifier.sourceCall info form node).isMarked := by
    rw [Instruction.isMarked, Instruction.info_of_traverse found, ← Instruction.isMarked]
  rw [same, marked]
  obtain ⟨op, dropped, changed, isPure, counted⟩ := form
  cases suits with
  | flagged | received | variant => rfl
  | operator | remaining =>
      cases info.isMutation with
      | true => rfl
      | false => rfl
  | other outside => cases isLocal.symm.trans outside

/-- The pure form of a tensor call answers the first request of the call and no other. -/
theorem requests_eq (suits : Suits rules node info form.op form.dropped form.changed form.isPure)
    (flat : rules.Flat) (isLocal : (info.isTensor && !info.isInputMutation) = true)
    (found : (Purifier.sourceCall info form node).traverse image = .ok new) :
    new.requests rules = answerFirst (node.toInstruction.requests rules) := by
  have op : new.op = form.op := Instruction.op_traverse found
  rw [Instruction.requests, Instruction.requests, Instruction.isVariant_eq,
    Instruction.isVariant_eq, op, Instruction.contains_of_traverse found,
    Instruction.contains_of_traverse found]
  show [(form.keptKwargs node.kwargs).contains _, (form.keptKwargs node.kwargs).contains _, _] = _
  simp only [Std.ExtTreeMap.contains_eq_isSome_getElem?]
  obtain ⟨formOp, dropped, changed, isPure, counted⟩ := form
  cases suits with
  | flagged _ _ flagFound =>
      simp only [keptKwargs, Std.ExtTreeMap.getElem?_erase_self,
        ReusePlan.getElem?_erase_of_ne ReusePlan.inplace_ne_out, flagFound]
      rfl
  | received _ _ noFlag receiverFound =>
      simp only [keptKwargs, Std.ExtTreeMap.getElem?_erase_self,
        ReusePlan.getElem?_erase_of_ne ReusePlan.inplace_ne_out.symm, noFlag, receiverFound]
      rfl
  | @variant function _ _ noFlag noReceiver variantFound =>
      obtain ⟨_, -, listed⟩ := Option.bind_eq_some_iff.mp variantFound
      simp only [keptKwargs, noFlag, noReceiver, variantFound, Op.function?_callFunction,
        Option.bind_some, (flat.variant _ _ listed).1]
      rfl
  | @operator function replacement _ _ noFlag noReceiver noVariant _ listed =>
      simp only [keptKwargs, noFlag, noReceiver, noVariant, Op.function?_callFunction,
        Option.bind_some, (flat.operator _ _ listed).1]
      rfl
  | remaining _ _ noFlag noReceiver noVariant =>
      simp only [keptKwargs, noFlag, noReceiver, noVariant]
      rfl
  | other outside => cases isLocal.symm.trans outside

/-- The pure form of a call is clean if the call asks for work in place in at most one way, and only
then. -/
theorem clean_iff (suits : Suits rules node info form.op form.dropped form.changed form.isPure)
    (flat : rules.Flat) (isLocal : (info.isTensor && !info.isInputMutation) = true)
    (found : (Purifier.sourceCall info form node).traverse image = .ok new) :
    new.Clean rules ↔ (node.toInstruction.requests rules).count true ≤ 1 := by
  have answered := suits.requests_eq flat isLocal found
  have noFlag : new.kwargs.contains Rules.inplaceKeyword = false := by
    refine Bool.eq_false_of_not_eq_true fun flagged =>
      head?_answerFirst_ne (node.toInstruction.requests rules) ?_
    rw [← answered, Instruction.requests, flagged]
    rfl
  rw [← Nat.sub_eq_zero_iff_le, ← count_answerFirst, ← answered]
  constructor
  · intro clean
    simp [Instruction.requests, noFlag, clean.noReceiver, clean.noVariant]
  · intro none
    have silent : ∀ request ∈ new.requests rules, request = false := fun request member =>
      Bool.eq_false_of_not_eq_true fun isTrue => List.count_eq_zero.mp none (isTrue ▸ member)
    refine ⟨silent _ (by simp [Instruction.requests]), ?_,
      silent _ (by simp [Instruction.requests])⟩
    rw [Std.ExtTreeMap.contains_eq_isSome_getElem?, Option.isSome_eq_false_iff,
      Option.isNone_iff_eq_none] at noFlag
    exact Instruction.isFlagged_of_none noFlag

/-- A tensor call whose form is not pure asks for nothing. -/
theorem count_requests_eq_zero
    (suits : Suits rules node info form.op form.dropped form.changed form.isPure)
    (isLocal : (info.isTensor && !info.isInputMutation) = true) (impure : form.isPure = false) :
    (node.toInstruction.requests rules).count true = 0 := by
  have silent : node.kwargs[Rules.inplaceKeyword]? = none →
      node.kwargs[Rules.outKeyword]? = none →
        node.op.function?.bind rules.pureVariant? = none →
          (node.toInstruction.requests rules).count true = 0 := by
    intro noFlag noReceiver noVariant
    rw [Instruction.requests, Instruction.isVariant_eq, Std.ExtTreeMap.contains_eq_isSome_getElem?,
      Std.ExtTreeMap.contains_eq_isSome_getElem?, noFlag, noReceiver, noVariant]
    rfl
  obtain ⟨op, dropped, changed, isPure, counted⟩ := form
  cases suits with
  | flagged | received | variant => cases impure
  | operator _ _ noFlag noReceiver noVariant => exact silent noFlag noReceiver noVariant
  | remaining _ _ noFlag noReceiver noVariant => exact silent noFlag noReceiver noVariant
  | other outside => cases isLocal.symm.trans outside

end PureForm.Suits

/-! ### Purified graphs -/

namespace Node

/-- A tensor call without the mark of the tracer is clean. -/
def Purged (rules : Rules) (node : Node) : Prop :=
  node.op.isCall = true → node.toInstruction.isLocalTensor = true →
    node.toInstruction.isMarked = false → node.toInstruction.Clean rules

/-- A tensor call that does not become a literal asks for work in place in at most one way. -/
def AsksOnce (rules : Rules) (node : Node) : Prop :=
  node.op.isCall = true → node.toInstruction.isLocalTensor = true →
    node.toInstruction.isRecordedRead rules = false →
      (node.toInstruction.requests rules).count true ≤ 1

/-- The node is a tensor call with the mark of the tracer. -/
def keepsMark (node : Node) : Bool :=
  node.op.isCall && node.toInstruction.isLocalTensor && node.toInstruction.isMarked

end Node

namespace Purifier

variable {rules : Rules} {program : Program} {node : Node} {info : ValueInfo} {form : PureForm}

theorem isLocalTensor_pureCall (info : ValueInfo) (form : PureForm) (args : List Arg)
    (kwargs : Kwargs NodeId) :
    (pureCall info form args kwargs).isLocalTensor =
      (info.isTensor && !info.isInputMutation) := by
  rw [Instruction.isLocalTensor, pureCall]
  cases form.isPure with
  | true => rfl
  | false => rfl

/-- A tensor call that becomes a literal is the read of a recorded attribute. -/
theorem isRecordedRead_of_folded {read : AttributeRead} {value : Arg}
    (isLocal : (info.isTensor && !info.isInputMutation) = true)
    (formed : (PureForm.ofCall rules program.submodules node info).outcome = .ok form)
    (isRead : form.op = .callFunction .getAttribute)
    (reading : (AttributeRead.ofCall program.graph node).outcome = .ok read)
    (found : read.value = some value) : node.toInstruction.isRecordedRead rules = true := by
  rw [Instruction.isRecordedRead, ← PureForm.op_of_ofCall isLocal formed, isRead,
    ← (AttributeRead.of_ofCall reading).1, found]
  simp

/-- A tensor call that is made is not the read of a recorded attribute. -/
theorem isRecordedRead_of_called {read : AttributeRead}
    (isLocal : (info.isTensor && !info.isInputMutation) = true)
    (formed : (PureForm.ofCall rules program.submodules node info).outcome = .ok form)
    (reading : (if form.op = .callFunction .getAttribute then
      AttributeRead.ofCall program.graph node else pure {}).outcome = .ok read)
    (unread : read.value = none) : node.toInstruction.isRecordedRead rules = false := by
  rw [Instruction.isRecordedRead, ← PureForm.op_of_ofCall isLocal formed]
  by_cases isRead : form.op = .callFunction .getAttribute
  · rw [if_pos isRead] at reading
    rw [← (AttributeRead.of_ofCall reading).1, unread]
    exact Bool.and_false _
  · rw [decide_eq_false isRead, Bool.false_and]

/-- A call is made in a clean form if it asks for work in place in at most one way. -/
theorem purged_iff_asksOnce {graph : Graph} {env : Env} {args : List Arg} {kwargs : Kwargs NodeId}
    (isCall : node.op.isCall = true) (hasInfo : node.info = some info)
    (suits : PureForm.Suits rules node info form.op form.dropped form.changed form.isPure)
    (flat : rules.Flat)
    (unread : (info.isTensor && !info.isInputMutation) = true →
      node.toInstruction.isRecordedRead rules = false)
    (found : (sourceCall info form node).traverse env.value =
      .ok (pureCall info form args kwargs)) :
    (graph.newNode (pureCall info form args kwargs) none).Purged rules ↔ node.AsksOnce rules := by
  have sourceLocal := Instruction.isLocalTensor_eq hasInfo
  have newLocal := isLocalTensor_pureCall info form args kwargs
  by_cases isLocal : (info.isTensor && !info.isInputMutation) = true
  · have marked := suits.isMarked_eq isLocal found
    have clean := suits.clean_iff flat isLocal found
    constructor
    · intro purged _ _ _
      cases isPure : form.isPure with
      | true =>
          rw [isPure] at marked
          exact clean.mp (purged (suits.isCall isCall) (newLocal.trans isLocal) marked)
      | false => exact (suits.count_requests_eq_zero isLocal isPure).trans_le (Nat.zero_le 1)
    · intro asksOnce _ _ _
      exact clean.mpr (asksOnce isCall (sourceLocal.trans isLocal) (unread isLocal))
  · constructor
    · intro _ _ sourceIs
      exact absurd (sourceLocal.symm.trans sourceIs) isLocal
    · intro _ _ newIs
      exact absurd (newLocal.symm.trans newIs) isLocal

/-- A call that is made keeps the mark of the tracer only if a change is counted for it. -/
theorem keepsMark_le {graph : Graph} {env : Env} {args : List Arg} {kwargs : Kwargs NodeId}
    (formed : (PureForm.ofCall rules program.submodules node info).outcome = .ok form)
    (found : (sourceCall info form node).traverse env.value =
      .ok (pureCall info form args kwargs)) :
    (if (graph.newNode (pureCall info form args kwargs) none).keepsMark then 1 else 0) ≤
      (PureForm.mutationKeys form.counted).length := by
  split
  · next keeps =>
    rw [Node.keepsMark, Bool.and_eq_true, Bool.and_eq_true] at keeps
    obtain ⟨⟨-, isLocal⟩, marked⟩ := keeps
    rw [Graph.newNode, isLocalTensor_pureCall] at isLocal
    have marking := (PureForm.suits_of_ofCall formed).isMarked_eq isLocal found
    rcases PureForm.mutationKeys_of_ofCall formed with ⟨-, pure⟩ | ⟨-, -, name, -, keys⟩
    · rw [pure isLocal] at marking
      cases marking.symm.trans marked
    · rw [keys]
      rfl
  · exact Nat.zero_le _

/-- The purified part of a graph is clean if the visited nodes ask once, and only then; and the
calls that keep their mark have been counted. -/
structure Purged (rules : Rules) (visited : List Node) (purifier : Purifier) : Prop where
  stage : Stage visited purifier.graph purifier.env
  clean : (∀ node ∈ purifier.graph.nodes, node.Purged rules) ↔
    ∀ node ∈ visited, node.AsksOnce rules
  counted : purifier.graph.nodes.countP Node.keepsMark ≤ purifier.tally.total .mutation

theorem total_mutation_count (purifier : Purifier) (keys : List TallyKey) :
    (purifier.count keys).tally.total .mutation =
      purifier.tally.total .mutation + (PureForm.mutationKeys keys).length := by
  rw [PureForm.mutationKeys, ← List.countP_eq_length_filter]
  exact Tally.total_countAll purifier.tally keys .mutation

theorem Purged.step {visited : List Node} {purifier next : Purifier} (flat : rules.Flat)
    (purged : Purged rules visited purifier) (step : Step rules program node purifier next) :
    Purged rules (visited ++ [node]) next := by
  have stage := purged.stage.visit step.visit
  cases step with
  | @copied instruction noCall found =>
      have sameOp := congrArg Op.isCall (Instruction.op_traverse found)
      have noCallNew : instruction.op.isCall = false := sameOp.trans noCall
      refine ⟨stage, ?_, ?_⟩
      · rw [purged.stage.nodes_emit, List.forall_mem_append, List.forall_mem_append,
          List.forall_mem_singleton, List.forall_mem_singleton, purged.clean]
        refine and_congr_right fun _ => ⟨fun _ isCall => ?_, fun _ isCall => ?_⟩
        · cases noCall.symm.trans isCall
        · cases noCallNew.symm.trans isCall
      · have unmarked : (purifier.graph.newNode instruction node.copyHint).keepsMark = false := by
          show (instruction.op.isCall && _ && _) = false
          rw [noCallNew, Bool.false_and, Bool.false_and]
        rw [purged.stage.nodes_emit, List.countP_append, List.countP_singleton, unmarked]
        exact purged.counted
  | folded isCall hasInfo formed isRead reading found =>
      have recorded : node.AsksOnce rules := by
        intro _ isLocal notRecorded
        rw [Instruction.isLocalTensor_eq hasInfo] at isLocal
        rw [isRecordedRead_of_folded isLocal formed isRead reading found] at notRecorded
        cases notRecorded
      refine ⟨stage, ?_, ?_⟩
      · rw [List.forall_mem_append, List.forall_mem_singleton]
        exact purged.clean.trans (and_iff_left recorded).symm
      · refine purged.counted.trans ?_
        show _ ≤ (purifier.count _).tally.total .mutation
        rw [total_mutation_count]
        exact Nat.le_add_right _ _
  | @called info form read extra args kwargs isCall hasInfo formed reading unread naming foundArgs
      foundKwargs =>
      have found := traverse_sourceCall info foundArgs foundKwargs
      refine ⟨stage, ?_, ?_⟩
      · rw [purged.stage.nodes_emit, List.forall_mem_append, List.forall_mem_append,
          List.forall_mem_singleton, List.forall_mem_singleton, purged.clean]
        refine and_congr_right fun _ => ?_
        exact purged_iff_asksOnce isCall hasInfo (PureForm.suits_of_ofCall formed) flat
          (fun isLocal => isRecordedRead_of_called isLocal formed reading unread) found
      · rw [purged.stage.nodes_emit, List.countP_append, List.countP_singleton]
        show _ ≤ (purifier.count _).tally.total .mutation
        rw [total_mutation_count, PureForm.mutationKeys_append, PureForm.mutationKeys_append,
          List.length_append, List.length_append,
          Nat.add_assoc _ _ (PureForm.mutationKeys extra).length]
        exact Nat.add_le_add purged.counted
          ((keepsMark_le formed found).trans (Nat.le_add_right _ _))

theorem purged_start : Purged rules [] {} where
  stage := stage_start
  clean := ⟨fun _ _ isMember => absurd isMember List.not_mem_nil,
    fun _ _ isMember => absurd isMember List.not_mem_nil⟩
  counted := Nat.zero_le _

theorem purged_purify {graph : Graph} {tally : Tally} (flat : rules.Flat)
    (success : (purify rules program).outcome = .ok (graph, tally)) :
    ∃ env, Purged rules program.graph.nodes ⟨graph, env, tally⟩ :=
  purify_induction_steps (motive := fun visited purifier => Purged rules visited purifier)
    (fun _ _ _ _ _ _ purged step => purged.step flat step) purged_start success

end Purifier

/-- The tensor calls of a purified graph that lost the mark of the tracer have no receiver, no true
flag and no function that changes its first argument, exactly if every tensor call of the source
asks for work in place in at most one way.  The calls that keep the mark are counted. -/
theorem purified_calls_clean_iff {program : Program} {graph : Graph} {tally : Tally}
    (success : (purify .standard program).outcome = .ok (graph, tally)) :
    ((∀ node ∈ graph.nodes, node.Purged .standard) ↔
        ∀ node ∈ program.graph.nodes, node.AsksOnce .standard) ∧
      graph.nodes.countP Node.keepsMark ≤ tally.total .mutation := by
  obtain ⟨env, purged⟩ := Purifier.purged_purify Rules.flat_standard success
  exact ⟨purged.clean, purged.counted⟩

/-- A call with a flag and a receiver.  Purification takes the flag away and leaves the receiver. -/
def flaggedReceiver : Program where
  graph :=
    { nodes :=
        [{ op := .placeholder, id := ⟨0⟩, name := "input" },
          { op := .callFunction ⟨"torch.exp"⟩, args := [.ref ⟨0⟩], info := some {}, id := ⟨1⟩,
            name := "exp" },
          { op := .callFunction ⟨"torch.exp"⟩, args := [.ref ⟨0⟩],
            kwargs := ((∅ : Kwargs NodeId).insert Rules.inplaceKeyword
              (.literal (.bool false))).insert Rules.outKeyword (.ref ⟨1⟩),
            info := some {}, id := ⟨2⟩, name := "exp_1" },
          { op := .output, args := [.ref ⟨2⟩], id := ⟨3⟩, name := "output" }]
      created := 4 }

theorem flaggedReceiver_not_purged :
    ∃ graph tally, (purify .standard flaggedReceiver).outcome = .ok (graph, tally) ∧
      (¬∀ node ∈ graph.nodes, node.Purged .standard) ∧
        graph.nodes.countP Node.keepsMark ≤ tally.total .mutation := by
  obtain ⟨graph, tally, success⟩ : ∃ graph tally,
      (purify .standard flaggedReceiver).outcome = .ok (graph, tally) := ⟨_, _, rfl⟩
  obtain ⟨clean, counted⟩ := purified_calls_clean_iff success
  have asksTwice : ∃ node ∈ flaggedReceiver.graph.nodes,
      node.op.isCall = true ∧ node.toInstruction.isLocalTensor = true ∧
        node.toInstruction.isRecordedRead .standard = false ∧
          ¬(node.toInstruction.requests .standard).count true ≤ 1 := by decide +kernel
  obtain ⟨node, isMember, isCall, isLocal, unread, twice⟩ := asksTwice
  exact ⟨graph, tally, success,
    fun purged => twice (clean.mp purged node isMember isCall isLocal unread), counted⟩

end OpGraph
