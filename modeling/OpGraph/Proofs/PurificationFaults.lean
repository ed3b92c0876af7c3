import OpGraph.Proofs.Accounting
import OpGraph.Proofs.Atomicity
import OpGraph.Proofs.Rebinding
import OpGraph.Proofs.Renaming

/-!
# Faults that stop purification

A call stops purification in three ways: it has no record, it is counted under the name of a
submodule that is unknown, or it reads an attribute that is not recorded (`Node.fault?`).
References are never in the way.  In a valid graph a node refers to nodes before it, and these have
values, however often they have been bound anew (`Purifier.Ready`).

So purification of a valid graph fails with its first fault, and succeeds if there is none.
-/

namespace OpGraph

/-! ### Faults of nodes -/

/-- The recorded attribute that a call asks for, if it is the read of an attribute. -/
def Instruction.namedField? (instruction : Instruction) : Option InfoField :=
  (instruction.args[1]?.bind Argument.asText?).bind InfoField.ofAttribute?

namespace Node

/-- The failure to read an attribute of a node that is not recorded. -/
def unrecorded? (field : InfoField) (source : Node) : Option Failure :=
  match source.info.bind field.read with
  | some _ => none
  | none => some (.missingInfo source.name field)

/-- The fault of a call that becomes the read of an attribute. -/
def readFault? (rules : Rules) (graph : Graph) (node : Node) : Option Failure :=
  match node.toInstruction.namedField?, node.firstRef? with
  | some field, some target =>
    if node.toInstruction.formOp rules = .callFunction .getAttribute then
      (graph.find? target).bind (unrecorded? field)
    else
      none
  | _, _ => none

/-- Something is counted under the name of the submodule that a node calls. -/
def countsName (node : Node) (info : ValueInfo) : Bool :=
  info.isInputMutation || !info.isTensor ||
    (info.isMutation && !node.kwargs.contains Rules.inplaceKeyword &&
      !node.kwargs.contains Rules.outKeyword)

/-- The failure that ends purification at a node, if there is one. -/
def fault? (rules : Rules) (program : Program) (node : Node) : Option Failure :=
  if node.op.isCall then
    match node.info, node.unresolved? program.submodules with
    | none, _ => some (.missingInfo node.name .type)
    | some info, some path => if node.countsName info then some (.unknownSubmodule path) else none
    | some _, none => node.readFault? rules program.graph
  else
    none

/-- A fault is a missing record or an unknown submodule. -/
theorem kind_of_fault? {rules : Rules} {program : Program} {node : Node} {cause : Failure}
    (fault : node.fault? rules program = some cause) :
    (∃ name field, cause = .missingInfo name field) ∨ ∃ path, cause = .unknownSubmodule path := by
  unfold fault? at fault
  split at fault
  · split at fault
    · exact Or.inl ⟨_, _, (Option.some.inj fault).symm⟩
    · split at fault
      · exact Or.inr ⟨_, (Option.some.inj fault).symm⟩
      · cases fault
    · unfold readFault? at fault
      split at fault
      · split at fault
        · obtain ⟨source, -, fault⟩ := Option.bind_eq_some_iff.mp fault
          unfold unrecorded? at fault
          split at fault
          · cases fault
          · exact Or.inl ⟨_, _, (Option.some.inj fault).symm⟩
        · cases fault
      · cases fault
  · cases fault

variable {rules : Rules} {submodules : Forest} {node : Node}

theorem longName_of_unresolved {path : String}
    (unresolved : node.unresolved? submodules = some path) :
    node.longName rules submodules = .error (.unknownSubmodule path) := by
  obtain ⟨isOp, unknown⟩ := unresolved?_eq_some.mp unresolved
  simp only [longName, isOp, Forest.get, unknown]
  rfl

theorem exists_longName (resolved : node.unresolved? submodules = none) :
    ∃ name, node.longName rules submodules = .ok name := by
  obtain ⟨short, named⟩ := Storage.exists_shortName resolved
  unfold longName
  split
  · exact ⟨_, rfl⟩
  · next path isOp =>
    simp only [shortName, isOp] at named
    obtain ⟨submodule, found, -⟩ := Outcome.map_eq_ok.mp named
    exact ⟨submodule.qualifiedClass, by rw [found]; rfl⟩
  · exact ⟨short, named⟩

end Node

/-! ### Forms and reads -/

namespace PureForm

variable {rules : Rules} {submodules : Forest} {node : Node} {info : ValueInfo}

theorem exists_ofOperator {name : String} (named : node.longName rules submodules = .ok name) :
    ∃ form, (ofOperator rules submodules node).outcome = .ok form := by
  unfold ofOperator
  split
  · split
    · split
      · simp only [Report.outcome_bind, Report.outcome_note, Report.outcome_ofExcept, named]
        exact ⟨_, rfl⟩
      · exact ⟨_, rfl⟩
    · exact ⟨_, rfl⟩
  · exact ⟨_, rfl⟩

/-- A call with a name has a form. -/
theorem exists_ofCall {name : String} (named : node.longName rules submodules = .ok name) :
    ∃ form, (ofCall rules submodules node info).outcome = .ok form := by
  unfold ofCall
  split
  · unfold ofTensor
    split
    · exact ⟨_, rfl⟩
    · exact ⟨_, rfl⟩
    · split
      · exact ⟨_, rfl⟩
      · obtain ⟨form, found⟩ := exists_ofOperator named
        simp only [ofRemaining, Report.outcome_bind, found]
        show ∃ result, (if info.isMutation = true then _ else _ : Report PureForm).outcome =
          .ok result
        split
        · simp only [Report.outcome_bind, Report.outcome_ofExcept, named]
          exact ⟨_, rfl⟩
        · exact ⟨_, rfl⟩
  · unfold ofOther
    split
    · simp only [Report.outcome_bind, Report.outcome_ofExcept, named]
      exact ⟨_, rfl⟩
    · exact ⟨_, rfl⟩

/-- If no keyword asks for work in place, the call of an unknown submodule has a form unless the
tracer saw a change. -/
theorem outcome_ofRemaining_of_unresolved {path : String}
    (unresolved : node.unresolved? submodules = some path) :
    (ofRemaining rules submodules node info).outcome =
      if info.isMutation then .error (.unknownSubmodule path) else .ok { op := node.op } := by
  have unnamed := @Node.longName_of_unresolved rules submodules node path unresolved
  obtain ⟨isOp, -⟩ := Node.unresolved?_eq_some.mp unresolved
  have kept : (ofOperator rules submodules node).outcome = .ok { op := node.op } := by
    rw [ofOperator, isOp]
    rfl
  simp only [ofRemaining, Report.outcome_bind, kept]
  cases info.isMutation with
  | true =>
      simp only [if_true, Report.outcome_bind, Report.outcome_ofExcept, unnamed]
      rfl
  | false => rfl

/-- A call of an unknown submodule has a form unless the form counts something. -/
theorem outcome_ofCall_of_unresolved {path : String}
    (unresolved : node.unresolved? submodules = some path) :
    (ofCall rules submodules node info).outcome = .error (.unknownSubmodule path) ∧
        node.countsName info = true ∨
      (∃ form, (ofCall rules submodules node info).outcome = .ok form) ∧
        node.countsName info = !info.isTensor := by
  obtain ⟨isOp, -⟩ := Node.unresolved?_eq_some.mp unresolved
  have contains : ∀ keyword, node.kwargs.contains keyword = node.kwargs[keyword]?.isSome :=
    fun _ => Std.ExtTreeMap.contains_eq_isSome_getElem?
  unfold ofCall
  split
  · next isLocal =>
    obtain ⟨isTensor, noInput⟩ := (Bool.and_eq_true _ _).mp isLocal
    have inside : info.isInputMutation = false := by simpa using noInput
    have counts : node.countsName info = (info.isMutation &&
        !node.kwargs[Rules.inplaceKeyword]?.isSome && !node.kwargs[Rules.outKeyword]?.isSome) := by
      rw [Node.countsName, isTensor, inside, contains, contains]
      rfl
    rw [counts, isTensor]
    unfold ofTensor
    split
    · next found => exact Or.inr ⟨⟨_, rfl⟩, by simp [found]⟩
    · next found => exact Or.inr ⟨⟨_, rfl⟩, by simp [found]⟩
    · next noFlag noReceiver =>
      rw [noFlag, noReceiver, isOp]
      show (ofRemaining rules submodules node info).outcome = _ ∧ _ ∨
        (∃ form, (ofRemaining rules submodules node info).outcome = _) ∧ _
      rw [outcome_ofRemaining_of_unresolved unresolved]
      cases info.isMutation with
      | true => exact Or.inl ⟨rfl, rfl⟩
      | false => exact Or.inr ⟨⟨_, rfl⟩, rfl⟩
  · next notLocal =>
    unfold ofOther
    split
    · next isInput =>
      refine Or.inl ⟨?_, by rw [Node.countsName, isInput]; rfl⟩
      simp only [Report.outcome_bind, Report.outcome_ofExcept,
        Node.longName_of_unresolved unresolved]
      rfl
    · next noInput =>
      have noTensor : info.isTensor = false := by simpa [noInput] using notLocal
      exact Or.inr ⟨⟨_, rfl⟩, by simp [Node.countsName, noTensor]⟩

end PureForm

namespace AttributeRead

variable {graph : Graph} {node : Node}

/-- The read of an attribute that is not recorded fails. -/
theorem outcome_ofCall_of_unrecorded {field : InfoField} {target : NodeId} {source : Node}
    {cause : Failure} (named : node.toInstruction.namedField? = some field)
    (first : node.firstRef? = some target) (found : graph.find? target = some source)
    (fault : source.unrecorded? field = some cause) :
    (ofCall graph node).outcome = .error cause := by
  obtain ⟨attributeName, text, isField⟩ := Option.bind_eq_some_iff.mp named
  have got : graph.get target = .ok source := by rw [Graph.get, found]
  unfold Node.unrecorded? at fault
  split at fault
  · cases fault
  · next missing =>
    obtain rfl := Option.some.inj fault
    rw [ofCall, text]
    dsimp only
    rw [isField, first]
    simp only [Report.outcome_bind, Report.outcome_ofExcept, got]
    show (source.infoFor field >>= _) = _
    cases hasInfo : source.info with
    | none =>
        rw [Node.infoFor, hasInfo]
        rfl
    | some info =>
        rw [hasInfo, Option.bind_some] at missing
        rw [Node.infoFor, hasInfo]
        show (match field.read info with | some value => _ | none => _ : Report _).outcome = _
        rw [missing]
        rfl

/-- Any other read succeeds. -/
theorem exists_ofCall (recorded : ∀ field target, node.toInstruction.namedField? = some field →
      node.firstRef? = some target →
        ∃ source, graph.find? target = some source ∧ source.unrecorded? field = none) :
    ∃ read, (ofCall graph node).outcome = .ok read := by
  unfold ofCall
  split
  · exact ⟨_, rfl⟩
  · next attributeName text =>
    split
    · next field target isField first =>
      have named : node.toInstruction.namedField? = some field := by
        rw [Instruction.namedField?, text, Option.bind_some, isField]
      obtain ⟨source, found, noFault⟩ := recorded field target named first
      have got : graph.get target = .ok source := by rw [Graph.get, found]
      unfold Node.unrecorded? at noFault
      split at noFault
      · next value isRecorded =>
        obtain ⟨info, hasInfo, isValue⟩ := Option.bind_eq_some_iff.mp isRecorded
        have known : source.infoFor field = .ok info := by rw [Node.infoFor, hasInfo]
        simp only [Report.outcome_bind, Report.outcome_ofExcept, got]
        show ∃ read, (source.infoFor field >>= _) = .ok read
        rw [known]
        show ∃ read, (match field.read info with | some value => _ | none => _ : Report _).outcome =
          .ok read
        rw [isValue]
        exact ⟨_, rfl⟩
      · cases noFault
    · exact ⟨_, rfl⟩

end AttributeRead

/-! ### Visits -/

/-- An instruction that refers to nodes with values can be read. -/
theorem Env.exists_traverse {env : Env} {instruction : Instruction}
    (bound : ∀ input ∈ instruction.inputs, env.contains input = true) :
    ∃ result, instruction.traverse env.value = .ok result := by
  refine ⟨_, Instruction.traverse_eq_ok_iff.mpr ⟨fun input isInput => ?_, rfl⟩⟩
  have isBound := bound input isInput
  rw [Std.ExtTreeMap.contains_eq_isSome_getElem?] at isBound
  obtain ⟨value, found⟩ := Option.isSome_iff_exists.mp isBound
  exact ⟨value, Env.value_eq_ok_iff.mpr found⟩

namespace Purifier

variable {rules : Rules} {program : Program} {purifier : Purifier} {node : Node}

theorem exists_settle (bound : ∀ input ∈ node.inputs, purifier.env.contains input = true)
    (info : ValueInfo) (form : PureForm) (value : Option Arg) :
    ∃ next, purifier.settle node info form value = .ok next := by
  cases value with
  | some value => exact ⟨_, rfl⟩
  | none =>
      obtain ⟨instruction, found⟩ := @Env.exists_traverse purifier.env (sourceCall info form node)
        fun input isInput => bound input (mem_inputs_of_mem_sourceCall isInput)
      rw [settle, found]
      exact ⟨_, rfl⟩

/-- The form of a submodule call is no read of an attribute. -/
theorem form_of_unresolved {path : String} {info : ValueInfo} {form : PureForm}
    (hasInfo : node.info = some info)
    (unresolved : node.unresolved? program.submodules = some path)
    (formed : (PureForm.ofCall rules program.submodules node info).outcome = .ok form) :
    form.op ≠ .callFunction .getAttribute := by
  obtain ⟨isOp, -⟩ := Node.unresolved?_eq_some.mp unresolved
  have same : node.toInstruction.formOp rules = .callModule path := by
    unfold Instruction.formOp Instruction.pureOp
    rw [isOp]
    split
    · split
      · next isFunction => cases isFunction
      · rfl
    · rfl
  rw [PureForm.op_eq_formOp hasInfo formed, same]
  exact Op.noConfusion

/-- After its form has been found, a call is read, counted and settled. -/
theorem outcome_visit_of_form {info : ValueInfo} {form : PureForm} (isCall : node.op.isCall = true)
    (hasInfo : node.info = some info)
    (formed : (PureForm.ofCall rules program.submodules node info).outcome = .ok form)
    (purifier : Purifier) :
    (purifier.visit rules program node).outcome = (do
      let read ← (if form.op = .callFunction .getAttribute then
        AttributeRead.ofCall program.graph node else pure {}).outcome
      let keys ← nontensorKeys rules program.submodules node info read.value
      (purifier.count (form.counted ++ read.counted ++ keys)).settle node info form
        read.value) := by
  rw [outcome_visit_of_call isCall hasInfo, formed]
  rfl

/-- A call whose form has been found can be settled, if its read succeeds and its value, if it is
no tensor, has a name. -/
theorem exists_visit_of_form {info : ValueInfo} {form : PureForm} {read : AttributeRead}
    (isCall : node.op.isCall = true) (hasInfo : node.info = some info)
    (formed : (PureForm.ofCall rules program.submodules node info).outcome = .ok form)
    (reading : (if form.op = .callFunction .getAttribute then
      AttributeRead.ofCall program.graph node else pure {}).outcome = .ok read)
    (named : info.isTensor = true ∨ ∃ name, node.longName rules program.submodules = .ok name)
    (bound : ∀ input ∈ node.inputs, purifier.env.contains input = true) :
    ∃ next, (purifier.visit rules program node).outcome = .ok next := by
  obtain ⟨keys, counted⟩ :
      ∃ keys, nontensorKeys rules program.submodules node info read.value = .ok keys := by
    unfold nontensorKeys
    split
    · exact ⟨_, rfl⟩
    · split
      · exact ⟨_, rfl⟩
      · next noTensor =>
        obtain ⟨name, named⟩ := named.resolve_left noTensor
        rw [named]
        exact ⟨_, rfl⟩
  obtain ⟨next, settled⟩ := @exists_settle
    (purifier.count (form.counted ++ read.counted ++ keys)) node bound info form read.value
  refine ⟨next, (outcome_visit_of_form isCall hasInfo formed purifier).trans ?_⟩
  exact Outcome.bind_eq_ok.mpr ⟨read, reading, Outcome.bind_eq_ok.mpr ⟨keys, counted, settled⟩⟩

theorem outcome_visit_of_unrecorded (isCall : node.op.isCall = true) (noInfo : node.info = none) :
    (purifier.visit rules program node).outcome = .error (.missingInfo node.name .type) := by
  have unknown : node.infoFor .type = .error (.missingInfo node.name .type) := by
    rw [Node.infoFor, noInfo]
  rw [visit, if_pos isCall]
  simp only [visitCall, Report.outcome_bind, Report.outcome_ofExcept, unknown]
  rfl

/-- A call of an unknown submodule fails if something is counted under its name. -/
theorem outcome_visit_of_unresolved {info : ValueInfo} {path : String}
    (isCall : node.op.isCall = true) (hasInfo : node.info = some info)
    (unresolved : node.unresolved? program.submodules = some path)
    (counts : node.countsName info = true) :
    (purifier.visit rules program node).outcome = .error (.unknownSubmodule path) := by
  rcases @PureForm.outcome_ofCall_of_unresolved rules _ _ info _ unresolved with
    ⟨failed, -⟩ | ⟨⟨form, formed⟩, same⟩
  · rw [outcome_visit_of_call isCall hasInfo, failed]
    rfl
  · -- The form has no name to count, so it is the value that is counted.
    have noTensor : info.isTensor = false := by simpa [counts] using same
    rw [outcome_visit_of_form isCall hasInfo formed,
      if_neg (form_of_unresolved hasInfo unresolved formed)]
    show nontensorKeys rules program.submodules node info none >>= _ = _
    rw [nontensorKeys, noTensor, Node.longName_of_unresolved unresolved]
    rfl

/-- Otherwise it can be visited. -/
theorem exists_visit_of_unresolved {info : ValueInfo} {path : String}
    (isCall : node.op.isCall = true) (hasInfo : node.info = some info)
    (unresolved : node.unresolved? program.submodules = some path)
    (notCounted : ¬node.countsName info = true)
    (bound : ∀ input ∈ node.inputs, purifier.env.contains input = true) :
    ∃ next, (purifier.visit rules program node).outcome = .ok next := by
  rcases @PureForm.outcome_ofCall_of_unresolved rules _ _ info _ unresolved with
    ⟨-, counts⟩ | ⟨⟨form, formed⟩, same⟩
  · exact absurd counts notCounted
  · have isTensor : info.isTensor = true := by simpa [notCounted] using same
    have reading : (if form.op = .callFunction .getAttribute then
        AttributeRead.ofCall program.graph node else pure {}).outcome = .ok {} := by
      rw [if_neg (form_of_unresolved hasInfo unresolved formed)]
      rfl
    exact exists_visit_of_form isCall hasInfo formed reading (Or.inl isTensor) bound

/-- A call that becomes the read of an attribute fails if the attribute is not recorded. -/
theorem outcome_visit_of_readFault? {info : ValueInfo} {cause : Failure}
    (isCall : node.op.isCall = true) (hasInfo : node.info = some info)
    (resolved : node.unresolved? program.submodules = none)
    (fault : node.readFault? rules program.graph = some cause) :
    (purifier.visit rules program node).outcome = .error cause := by
  unfold Node.readFault? at fault
  split at fault
  · next field target isField first =>
    split at fault
    · next isRead =>
      obtain ⟨source, found, fault⟩ := Option.bind_eq_some_iff.mp fault
      obtain ⟨name, named⟩ := @Node.exists_longName rules _ _ resolved
      obtain ⟨form, formed⟩ := @PureForm.exists_ofCall rules _ _ info _ named
      rw [outcome_visit_of_form isCall hasInfo formed,
        if_pos ((PureForm.op_eq_formOp hasInfo formed).trans isRead),
        AttributeRead.outcome_ofCall_of_unrecorded isField first found fault]
      rfl
    · cases fault
  · cases fault

/-- Otherwise a call that is recorded and whose submodule is known can be visited. -/
theorem exists_visit_of_resolved {info : ValueInfo} (isCall : node.op.isCall = true)
    (hasInfo : node.info = some info) (resolved : node.unresolved? program.submodules = none)
    (noFault : node.readFault? rules program.graph = none)
    (bound : ∀ input ∈ node.inputs, purifier.env.contains input = true)
    (known : ∀ input ∈ node.inputs, (program.graph.find? input).isSome = true) :
    ∃ next, (purifier.visit rules program node).outcome = .ok next := by
  obtain ⟨name, named⟩ := @Node.exists_longName rules _ _ resolved
  obtain ⟨form, formed⟩ := @PureForm.exists_ofCall rules _ _ info _ named
  obtain ⟨read, reading⟩ : ∃ read, (if form.op = .callFunction .getAttribute then
      AttributeRead.ofCall program.graph node else pure {}).outcome = .ok read := by
    split
    · next isRead =>
      have isFormOp := (PureForm.op_eq_formOp hasInfo formed).symm.trans isRead
      refine AttributeRead.exists_ofCall fun field target isField first => ?_
      obtain ⟨source, found⟩ := Option.isSome_iff_exists.mp
        (known target (Instruction.mem_inputs_of_firstRef? first))
      refine ⟨source, found, ?_⟩
      simpa only [Node.readFault?, isField, first, if_pos isFormOp, found, Option.bind_some]
        using noFault
    · exact ⟨_, rfl⟩
  exact exists_visit_of_form isCall hasInfo formed reading (Or.inr ⟨name, named⟩) bound

/-- A visit fails with the fault of its node. -/
theorem outcome_visit_of_fault? {cause : Failure} (fault : node.fault? rules program = some cause) :
    (purifier.visit rules program node).outcome = .error cause := by
  unfold Node.fault? at fault
  split at fault
  · next isCall =>
    split at fault
    · next noInfo =>
      obtain rfl := Option.some.inj fault
      exact outcome_visit_of_unrecorded isCall noInfo
    · next info path hasInfo unresolved =>
      split at fault
      · next counts =>
        obtain rfl := Option.some.inj fault
        exact outcome_visit_of_unresolved isCall hasInfo unresolved counts
      · cases fault
    · next info hasInfo resolved =>
      exact outcome_visit_of_readFault? isCall hasInfo resolved fault
  · cases fault

/-- A node without fault can be visited, once the nodes that it refers to have values. -/
theorem exists_visit (noFault : node.fault? rules program = none)
    (bound : ∀ input ∈ node.inputs, purifier.env.contains input = true)
    (known : ∀ input ∈ node.inputs, (program.graph.find? input).isSome = true) :
    ∃ next, (purifier.visit rules program node).outcome = .ok next := by
  unfold Node.fault? at noFault
  split at noFault
  · next isCall =>
    split at noFault
    · cases noFault
    · next info path hasInfo unresolved =>
      split at noFault
      · cases noFault
      · next notCounted =>
        exact exists_visit_of_unresolved isCall hasInfo unresolved notCounted bound
    · next info hasInfo resolved =>
      exact exists_visit_of_resolved isCall hasInfo resolved noFault bound known
  · next noCall =>
    obtain ⟨instruction, found⟩ := Env.exists_traverse bound
    rw [outcome_visit_of_leaf (Bool.eq_false_of_not_eq_true noCall), found]
    exact ⟨_, rfl⟩

/-- A walk over the remaining nodes ends at the first fault, or at the end if there is none. -/
theorem outcome_foldlM_visit {visited rest : List Node} {cause : Failure}
    (closed : Graph.Closed ∅ program.graph.nodes) (split : program.graph.nodes = visited ++ rest)
    (ready : Ready visited purifier) :
    (rest.foldlM (visit rules program) purifier).outcome = .error cause ↔
      (rest.filterMap (Node.fault? rules program)).head? = some cause := by
  induction rest generalizing visited purifier with
  | nil => exact iff_of_false (by rintro ⟨⟩) (by rintro ⟨⟩)
  | cons node rest ih =>
      rw [List.foldlM_cons, Report.outcome_bind]
      cases fault : node.fault? rules program with
      | some actual =>
          rw [outcome_visit_of_fault? fault, List.filterMap_cons_some fault]
          show Except.error actual = .error cause ↔ some actual = some cause
          rw [Except.error.injEq, Option.some.injEq]
      | none =>
          have earlier : ∀ input ∈ node.inputs, input ∈ visited.map Node.id :=
            fun _ isInput => (split ▸ closed).mem_before isInput
          have known : ∀ input ∈ node.inputs, (program.graph.find? input).isSome = true := by
            intro input isInput
            obtain ⟨source, isSource, same⟩ := List.mem_map.mp (earlier input isInput)
            rw [Graph.find?, List.find?_isSome, split]
            exact ⟨source, List.mem_append_left _ isSource, decide_eq_true same⟩
          have bound : ∀ input ∈ node.inputs, purifier.env.contains input = true :=
            fun input isInput => ready.bound input (earlier input isInput)
          obtain ⟨next, visit⟩ := exists_visit fault bound known
          rw [visit, List.filterMap_cons_none fault]
          exact ih (by rw [split, List.append_assoc]; rfl) (ready.step (step_of_eq_ok visit))

end Purifier

/-! ### Programs that miss nothing -/

/-- The calls are recorded, the submodules known, and the attributes that are read recorded. -/
structure Program.Complete (rules : Rules) (program : Program) : Prop where
  recorded : ∀ node ∈ program.graph.nodes, node.op.isCall = true → node.info.isSome = true
  resolved : ∀ node ∈ program.graph.nodes, ∀ path, node.op = .callModule path →
    ∃ submodule, program.submodules.get path = .ok submodule
  readable : ∀ node ∈ program.graph.nodes,
    node.toInstruction.formOp rules = .callFunction .getAttribute →
    ∀ field ∈ [InfoField.dtype, .device], ∀ target,
      node.args.take 2 = [.ref target, .literal (.text field.word)] →
      ∃ source info value, program.graph.find? target = some source ∧ source.info = some info ∧
        field.read info = some value

/-- A read of a recorded attribute names a node and the attribute. -/
theorem Instruction.take_args_of_namedField? {instruction : Instruction} {field : InfoField}
    {target : NodeId} (named : instruction.namedField? = some field)
    (first : instruction.firstRef? = some target) :
    field ∈ [InfoField.dtype, .device] ∧
      instruction.args.take 2 = [.ref target, .literal (.text field.word)] := by
  obtain ⟨attributeName, found, isField⟩ := Option.bind_eq_some_iff.mp named
  obtain ⟨second, isSecond, isText⟩ := Option.bind_eq_some_iff.mp found
  obtain ⟨head, isHead, isRef⟩ := Option.bind_eq_some_iff.mp first
  obtain rfl := Argument.eq_ref_of_asRef? isRef
  have isLiteral : second = .literal (.text attributeName) := by
    unfold Argument.asText? at isText
    split at isText
    · rw [Option.some.inj isText]
    · cases isText
  have isWord : field ∈ [InfoField.dtype, .device] ∧ attributeName = field.word := by
    unfold InfoField.ofAttribute? at isField
    split at isField
    · next same =>
      obtain rfl := Option.some.inj isField
      exact ⟨List.mem_cons_self, same⟩
    · split at isField
      · next same =>
        obtain rfl := Option.some.inj isField
        exact ⟨List.mem_cons_of_mem _ List.mem_cons_self, same⟩
      · cases isField
  refine ⟨isWord.1, ?_⟩
  rw [← isWord.2, ← isLiteral]
  match args : instruction.args with
  | [] => rw [args] at isHead; cases isHead
  | [_] => rw [args] at isSecond; cases isSecond
  | left :: right :: _ =>
      rw [args] at isHead isSecond
      rw [← Option.some.inj isHead, ← Option.some.inj isSecond]
      rfl

theorem Program.Complete.fault?_eq_none {rules : Rules} {program : Program}
    (complete : program.Complete rules) {node : Node} (member : node ∈ program.graph.nodes) :
    node.fault? rules program = none := by
  unfold Node.fault?
  split
  · next isCall =>
    split
    · next noInfo => simpa [noInfo] using complete.recorded node member isCall
    · next info path _ unresolved =>
      obtain ⟨isOp, unknown⟩ := Node.unresolved?_eq_some.mp unresolved
      obtain ⟨submodule, found⟩ := complete.resolved node member path isOp
      rw [Forest.get, unknown] at found
      cases found
    · unfold Node.readFault?
      split
      · next field target named first =>
        split
        · next isRead =>
          obtain ⟨isField, args⟩ := Instruction.take_args_of_namedField? named first
          obtain ⟨source, info, value, found, hasInfo, isValue⟩ :=
            complete.readable node member isRead field isField target args
          rw [found, Option.bind_some, Node.unrecorded?, hasInfo,
            Option.bind_some, isValue]
        · rfl
      · rfl
  · rfl

/-- Purification of a valid graph fails with the fault of the first node that has one.  This is a
missing record or an unknown submodule, and a program that misses nothing is purified. -/
theorem purification_fails_with_first_fault {program : Program}
    (valid : program.graph.validate = .ok ()) (rules : Rules) :
    (∀ cause, (purify rules program).outcome = .error cause ↔
      (program.graph.nodes.filterMap (Node.fault? rules program)).head? = some cause) ∧
    (∀ cause, (purify rules program).outcome = .error cause →
      (∃ name field, cause = .missingInfo name field) ∨ ∃ path, cause = .unknownSubmodule path) ∧
    (program.Complete rules →
      ∃ graph tally, (purify rules program).outcome = .ok (graph, tally)) := by
  have closed := (Graph.validate_eq_ok_iff.mp valid).closed
  have fails : ∀ cause, (purify rules program).outcome = .error cause ↔
      (program.graph.nodes.filterMap (Node.fault? rules program)).head? = some cause := by
    intro cause
    rw [← Purifier.outcome_foldlM_visit closed rfl Purifier.ready_start]
    simp only [purify, Report.outcome_bind, Report.outcome_note, Report.outcome_pure]
    cases (program.graph.nodes.foldlM (Purifier.visit rules program) {}).outcome with
    | error actual =>
        show Except.error actual = .error cause ↔ Except.error actual = .error cause
        rw [Except.error.injEq, Except.error.injEq]
    | ok purifier => exact iff_of_false (by rintro ⟨⟩) (by rintro ⟨⟩)
  refine ⟨fails, fun cause failure => ?_, fun complete => ?_⟩
  · obtain ⟨node, -, fault⟩ :=
      List.mem_filterMap.mp (List.mem_of_head? ((fails cause).mp failure))
    exact Node.kind_of_fault? fault
  · cases outcome : (purify rules program).outcome with
    | ok result => exact ⟨result.1, result.2, rfl⟩
    | error cause =>
        obtain ⟨node, member, fault⟩ :=
          List.mem_filterMap.mp (List.mem_of_head? ((fails cause).mp outcome))
        cases (complete.fault?_eq_none member).symm.trans fault

/-- A value is changed in place before its device is read, and handed to the submodule of a
submodule. -/
def deviceReads (device : Option String) : Program where
  graph :=
    { nodes :=
        [{ op := .placeholder, id := ⟨0⟩, name := "input" },
          { op := .callFunction ⟨"torch.exp"⟩, args := [.ref ⟨0⟩], info := some { device },
            id := ⟨1⟩, name := "exp" },
          { op := .callFunction ⟨"torch.relu_"⟩, args := [.ref ⟨1⟩],
            info := some { isMutation := true }, id := ⟨2⟩, name := "relu_" },
          { op := .callFunction .getAttribute, args := [.ref ⟨1⟩, .literal (.text "device")],
            info := some { kind := .other "device" }, id := ⟨3⟩, name := "getattr" },
          { op := .callModule "block.inner", args := [.ref ⟨1⟩, .ref ⟨3⟩],
            info := some { isMutation := true }, id := ⟨4⟩, name := "block_inner" },
          { op := .output, args := [.ref ⟨4⟩], id := ⟨5⟩, name := "output" }]
      created := 6 }
  submodules :=
    [("block", { className := "Block", children := [("inner", { className := "Inner" })] })]

theorem complete_deviceReads : (deviceReads (some "cpu")).Complete .standard := by
  refine ⟨by decide, ?_, ?_⟩
  · have calls : ∀ node ∈ (deviceReads (some "cpu")).graph.nodes,
        node.op.isCall = false ∨ node.op.function?.isSome = true ∨
          node.op = .callModule "block.inner" := by decide
    intro node member path isOp
    obtain rfl : path = "block.inner" := by
      simpa [isOp, Op.isCall, Op.function?] using calls node member
    exact ⟨_, rfl⟩
  · have reads : ∀ node ∈ (deviceReads (some "cpu")).graph.nodes,
        node.toInstruction.formOp .standard = .callFunction .getAttribute →
          node.args.take 2 = [.ref ⟨1⟩, .literal (.text "device")] := by decide +kernel
    intro node member isRead field isField target args
    have same := (reads node member isRead).symm.trans args
    cases field with
    | type | dtype => simp [InfoField.word] at same
    | device =>
        obtain rfl : ⟨1⟩ = target := by simpa [InfoField.word] using same
        exact ⟨_, _, "cpu", rfl, rfl, rfl⟩

theorem deviceReads_fail_with_first_fault :
    (∃ graph tally, (purify .standard (deviceReads (some "cpu"))).outcome = .ok (graph, tally)) ∧
      (purify .standard (deviceReads none)).outcome = .error (.missingInfo "exp" .device) := by
  have valid : ∀ device, (deviceReads device).graph.validate = .ok () := fun _ => rfl
  refine ⟨(purification_fails_with_first_fault (valid _) _).2.2 complete_deviceReads, ?_⟩
  exact ((purification_fails_with_first_fault (valid none) _).1 _).mpr (by decide +kernel)

end OpGraph
