import OpGraph.Proofs.Rebinding
import OpGraph.Proofs.Renaming
import OpGraph.Proofs.ReuseCorrespondence

/-!
# Purification undoes storage reuse

A call that is told to write over an operand asks in exactly one way, and its pure form is that of
the call it has come from (`ReusePlan.Grants.exists_form_apply`).  The operand is bound to the new
value, but nothing reads it any more.  So a program of calls that change nothing has the same pure
form before and after storage reuse.
-/

namespace OpGraph

/-- A tensor call that changes nothing, according to the rules and to the tracer. -/
structure Instruction.Functional (rules : Rules) (instruction : Instruction) : Prop where
  info : ∃ info, instruction.info = some info ∧ info.isTensor = true ∧ info.isMutation = false ∧
    info.isInputMutation = false
  noVariant : instruction.isVariant rules = false
  unchanged : instruction.mutatedArgument? rules = none

/-- A function that may write into an argument is no operator, and reads no attributes. -/
def Rules.Separate (rules : Rules) : Prop :=
  ∀ function, rules.staysPure function = false →
    rules.operatorFunctions[function]? = none ∧ function ≠ .getAttribute

theorem Rules.separate_standard : standard.Separate := by
  have operators : ∀ entry ∈ standard.operatorFunctions.toList,
      standard.staysPure entry.1 = true := by decide +kernel
  have reads : standard.staysPure .getAttribute = true := by decide +kernel
  intro function impure
  constructor
  · cases found : standard.operatorFunctions[function]? with
    | none => rfl
    | some image =>
        have pure := operators (function, image)
          (Std.ExtTreeMap.mem_toList_iff_getElem?_eq_some.mpr found)
        cases impure.symm.trans pure
  · rintro rfl
    cases impure.symm.trans reads

/-! ### The form of a changed call -/

namespace ReusePlan.Grants

variable {rules : Rules} {source applied : Node} {plan : ReusePlan} {operand : NodeId}
variable {info : ValueInfo} {submodules : Forest}

/-- A call that changes nothing has no receiver. -/
theorem noReceiver (grants : plan.Grants rules source.toInstruction operand)
    (functional : source.toInstruction.Functional rules) :
    source.kwargs[Rules.outKeyword]? = none := by
  cases receiver : source.kwargs[Rules.outKeyword]? with
  | none => rfl
  | some argument =>
      obtain ⟨function, isFunction, -⟩ := grants.function
      have isCall : source.op.isCall = true := by rw [isFunction]; rfl
      have unchanged := functional.unchanged
      rw [Instruction.mutatedArgument?, if_pos isCall, receiver,
        grants.leads.only.2.2 argument receiver] at unchanged
      cases unchanged

/-- The form of a call that can be changed keeps the operation and all arguments but flags. -/
theorem exists_form (grants : plan.Grants rules source.toInstruction operand)
    (functional : source.toInstruction.Functional rules) (separate : rules.Separate)
    (hasInfo : source.info = some info) (submodules : Forest) :
    ∃ form, (PureForm.ofCall rules submodules source info).outcome = .ok form ∧
      form.op = source.op ∧ form.changed = [] ∧ form.isPure = true ∧ form.counted = [] ∧
        form.keptKwargs source.kwargs = source.kwargs.erase Rules.inplaceKeyword := by
  obtain ⟨function, isFunction, impure⟩ := grants.function
  have isCall : source.op.isCall = true := by rw [isFunction]; rfl
  obtain ⟨known, found, isTensor, noMutation, noInput⟩ := functional.info
  obtain rfl : info = known := Option.some.inj (hasInfo.symm.trans found)
  have made : ∃ form, (PureForm.ofCall rules submodules source info).outcome = .ok form ∧
      form.op = source.op ∧ form.isPure = true ∧ form.counted = [] ∧
        form.keptKwargs source.kwargs = source.kwargs.erase Rules.inplaceKeyword := by
    rw [PureForm.ofCall, isTensor, noInput]
    show ∃ form, (PureForm.ofTensor rules submodules source info).outcome = .ok form ∧ _
    rw [PureForm.ofTensor, grants.noReceiver functional]
    cases flag : source.kwargs[Rules.inplaceKeyword]? with
    | some value => exact ⟨_, rfl, rfl, rfl, rfl, rfl⟩
    | none =>
        have noVariant : source.op.function?.bind rules.pureVariant? = none := by
          have known := functional.noVariant
          rw [Instruction.isVariant_eq] at known
          exact Option.isNone_iff_eq_none.mp (by simpa using known)
        refine ⟨{ op := source.op }, ?_, rfl, rfl, rfl, (Kwargs.erase_eq_self flag).symm⟩
        dsimp only
        rw [noVariant]
        show (PureForm.ofRemaining rules submodules source info).outcome = _
        simp only [PureForm.ofRemaining, PureForm.ofOperator, isFunction,
          (separate function impure).1, noMutation, Report.outcome_bind, Report.outcome_pure]
        rfl
  obtain ⟨form, success, op, isPure, counted, kept⟩ := made
  have unchanged := (PureForm.suits_of_ofCall success).changed_eq_nil isCall functional.unchanged
  exact ⟨form, success, op, unchanged, isPure, counted, kept⟩

/-- The form of a changed call keeps the same arguments, and changes the operand only. -/
theorem exists_form_apply (grants : plan.Grants rules source.toInstruction operand)
    (functional : source.toInstruction.Functional rules)
    (isApplied : applied.toInstruction = plan.apply source.toInstruction)
    (isLocal : (info.isTensor && !info.isInputMutation) = true) (submodules : Forest) :
    ∃ form, (PureForm.ofCall rules submodules applied info).outcome = .ok form ∧
      form.op = source.op ∧ (∀ id ∈ form.changed, id = operand) ∧ form.isPure = true ∧
        form.counted = [] ∧
          form.keptKwargs applied.kwargs = source.kwargs.erase Rules.inplaceKeyword := by
  have op : applied.op = source.op := by rw [isApplied]; rfl
  have first : applied.firstRef? = source.firstRef? := by rw [isApplied]; rfl
  have kwargs : applied.kwargs = plan.kwargs := by rw [isApplied]; rfl
  rw [PureForm.ofCall, if_pos isLocal, PureForm.ofTensor, op, first, kwargs]
  have adds := grants.adds
  generalize plan.kwargs = added at adds
  cases adds with
  | flag =>
      rw [Std.ExtTreeMap.getElem?_insert_self]
      refine ⟨_, rfl, rfl, fun id isChanged => ?_, rfl, rfl, erase_insert_erase _ _ _⟩
      exact grants.leads.only.2.1 id (Option.mem_toList.mp isChanged)
  | receiver =>
      have noFlag : ((source.kwargs.erase Rules.inplaceKeyword).insert Rules.outKeyword
          (.ref operand) : Kwargs NodeId)[Rules.inplaceKeyword]? = none := by
        rw [Std.ExtTreeMap.getElem?_insert, if_neg, Std.ExtTreeMap.getElem?_erase_self]
        exact fun equal => inplace_ne_out (Std.LawfulEqOrd.eq_of_compare equal).symm
      have absent : (source.kwargs.erase Rules.inplaceKeyword : Kwargs NodeId)[Rules.outKeyword]? =
          none := by
        rw [getElem?_erase_of_ne inplace_ne_out, grants.noReceiver functional]
      rw [noFlag, Std.ExtTreeMap.getElem?_insert_self]
      refine ⟨_, rfl, rfl, fun id isChanged => ?_, rfl, rfl, ?_⟩
      · simpa [Argument.asRef?] using isChanged
      · exact (Kwargs.erase_insert _ _ _).trans (Kwargs.erase_eq_self absent)

end ReusePlan.Grants

/-! ### Reads of attributes -/

theorem InfoField.read_marked (field : InfoField) (info : ValueInfo) (isMutation : Bool) :
    field.read { info with isMutation } = field.read info := by
  cases field with
  | type | dtype | device => rfl

section Correspondence

variable {rules : Rules} {storage : Storage} {names : NodeId → NodeId} {program : Program}
variable {graph : Graph}

/-- Where a node is found, what has become of it is found under its new name. -/
theorem Graph.Became.get (became : Graph.Became rules storage names program.graph.nodes graph.nodes)
    (wellFormed : program.graph.WellFormed) (wellFormedNew : graph.WellFormed) {target : NodeId}
    (isNode : target ∈ program.graph.nodes.map Node.id) :
    ∃ source new later, program.graph.get target = .ok source ∧ graph.get (names target) = .ok new ∧
      source.Became rules storage names later new := by
  obtain ⟨source, isSource, rfl⟩ := List.mem_map.mp isNode
  obtain ⟨before, later, split⟩ := List.append_of_mem isSource
  obtain ⟨front, new, back, splitNew, -, -, here, -⟩ := (split ▸ became).split
  refine ⟨source, new, later, ?_, ?_, here⟩
  · rw [Graph.get, Graph.find?_of_split wellFormed split]
  · rw [Graph.get, ← here.id_eq, Graph.find?_of_split wellFormedNew splitNew]

/-- A node and what has become of it have the same attributes, or none. -/
theorem Node.Became.infoFor {source new : Node} {later : List Node}
    (became : source.Became rules storage names later new) (field : InfoField) :
    Outcome.Matches (fun info newInfo => field.read info = field.read newInfo)
      (source.infoFor field) (new.infoFor field) := by
  cases became with
  | kept =>
      rw [Node.infoFor, Node.infoFor, Instruction.bind]
      cases source.info with
      | none => exact .error
      | some info => exact .ok rfl
  | changed =>
      rw [Node.infoFor, Node.infoFor, Instruction.bind, ReusePlan.apply]
      cases source.info with
      | none => exact .error
      | some info => exact .ok (field.read_marked info true).symm

/-- The read of an attribute gives the same under other names. -/
theorem AttributeRead.ofCall_matches
    (became : Graph.Became rules storage names program.graph.nodes graph.nodes)
    (wellFormed : program.graph.WellFormed) (wellFormedNew : graph.WellFormed) {node other : Node}
    (renamed : other.toInstruction = node.toInstruction.bind fun id => .ref (names id))
    (inputs : ∀ input ∈ node.inputs, input ∈ program.graph.nodes.map Node.id) :
    Outcome.Matches Eq (AttributeRead.ofCall program.graph node).outcome
      (AttributeRead.ofCall graph other).outcome := by
  refine ofCall_rename renamed fun target isInput => ?_
  obtain ⟨source, new, later, got, gotNew, here⟩ :=
    became.get wellFormed wellFormedNew (inputs target isInput)
  rw [got, gotNew]
  exact .ok here.infoFor

end Correspondence

/-! ### Purification before and after storage reuse -/

namespace Purifier

/-- The forms of two calls count the same and make the same call under different names, and what
the second one changes is not read any more. -/
structure Agrees (names : NodeId → NodeId) (later : Set NodeId) (node other : Node)
    (info otherInfo : ValueInfo) (reads : Prop) (form otherForm : PureForm) : Prop where
  op : otherForm.op = form.op
  counted : otherForm.counted = form.counted
  unchanged : form.changed = []
  call : sourceCall otherInfo otherForm other =
    (sourceCall info form node).bind fun id => .ref (names id)
  dead : ∀ id ∈ later, names id ∉ otherForm.changed
  read : form.op = .callFunction .getAttribute → reads

variable {rules : Rules} {names : NodeId → NodeId} {program otherProgram : Program}
variable {node other : Node} {info otherInfo : ValueInfo} {left right : Purifier}
variable {readable later : Set NodeId}

/-- Two calls whose forms agree are visited alike. -/
theorem Alike.visitCall (alike : Alike names readable left right)
    (isCall : node.op.isCall = true) (otherIsCall : other.op.isCall = true)
    (hasInfo : node.info = some info) (otherHasInfo : other.info = some otherInfo)
    (isTensor : info.isTensor = true) (otherIsTensor : otherInfo.isTensor = true)
    (id : other.id = names node.id)
    (forms : Outcome.Matches (Agrees names later node other info otherInfo
        (Outcome.Matches Eq (AttributeRead.ofCall program.graph node).outcome
          (AttributeRead.ofCall otherProgram.graph other).outcome))
      (PureForm.ofCall rules program.submodules node info).outcome
      (PureForm.ofCall rules otherProgram.submodules other otherInfo).outcome)
    (inputs : ∀ input ∈ node.inputs, input ∈ readable)
    (subset : ∀ other ∈ later, other = node.id ∨ other ∈ readable ∧ names other ≠ names node.id) :
    Outcome.Matches (Alike names later) (left.visit rules program node).outcome
      (right.visit rules otherProgram other).outcome := by
  rw [outcome_visit_of_isTensor isCall hasInfo isTensor,
    outcome_visit_of_isTensor otherIsCall otherHasInfo otherIsTensor]
  refine forms.bind fun form otherForm agrees => ?_
  have reads : Outcome.Matches Eq
      (if form.op = .callFunction .getAttribute then AttributeRead.ofCall program.graph node
        else pure {}).outcome
      (if otherForm.op = .callFunction .getAttribute then
        AttributeRead.ofCall otherProgram.graph other else pure {}).outcome := by
    rw [agrees.op]
    split
    · next isRead => exact agrees.read isRead
    · exact .ok rfl
  refine reads.bind fun read otherRead same => ?_
  subst same
  rw [agrees.counted]
  refine (alike.count _).settle id agrees.unchanged agrees.call ?_ ?_ read.value
  · exact fun input isInput => inputs input (mem_inputs_of_mem_sourceCall isInput)
  · exact fun other isLater => (subset other isLater).imp_right fun found =>
      ⟨found.1, found.2, agrees.dead other isLater⟩

/-- A node that is no call is copied alike. -/
theorem Alike.visitLeaf (alike : Alike names readable left right) (noCall : node.op.isCall = false)
    (inputs : ∀ input ∈ node.inputs, input ∈ readable)
    (subset : ∀ other ∈ later, other = node.id ∨ other ∈ readable ∧ names other ≠ names node.id)
    (same : names node.id = node.id) :
    Outcome.Matches (Alike names later) (left.visit rules program node).outcome
      (right.visit rules otherProgram
        { node with
          toInstruction := node.toInstruction.bind fun id => .ref (names id) }).outcome := by
  rw [outcome_visit_of_leaf noCall, @outcome_visit_of_leaf rules otherProgram
    { node with toInstruction := node.toInstruction.bind fun id => .ref (names id) } noCall,
    alike.traverse inputs]
  cases node.toInstruction.traverse left.env.value with
  | error cause => exact .error
  | ok instruction =>
      have values := @values_insert names readable later left right alike node.id
        (.ref left.graph.nextId) [] fun other isLater =>
          (subset other isLater).imp_right fun found => ⟨found.1, found.2, List.not_mem_nil⟩
      rw [same] at values
      refine .ok ⟨congrArg (Graph.emit · instruction node.copyHint) alike.graph, alike.tally, ?_⟩
      rw [← alike.graph]
      exact values

end Purifier

/-- The nodes that have been visited and are still read. -/
def Graph.stillRead (visited later : List Node) : Set NodeId :=
  {id | id ∈ visited.map Node.id ∧ ∃ node ∈ later, id ∈ node.inputs}

section Lockstep

variable {rules : Rules} {storage : Storage} {names : NodeId → NodeId} {program : Program}
variable {graph : Graph} {visited rest : List Node} {source new : Node} {left right : Purifier}

/-- The form of a call that stays agrees with its form under other names. -/
theorem PureForm.matches_kept {info : ValueInfo} {other : Node} {later : Set NodeId} {reads : Prop}
    (isCall : source.op.isCall = true)
    (unchanged : source.toInstruction.mutatedArgument? rules = none)
    (renamed : other.toInstruction = source.toInstruction.bind fun id => .ref (names id))
    (reading : reads) (submodules : Forest) :
    Outcome.Matches (Purifier.Agrees names later source other info info reads)
      (ofCall rules submodules source info).outcome
      (ofCall rules submodules other info).outcome := by
  rw [outcome_ofCall_rename isCall renamed]
  cases made : (ofCall rules submodules source info).outcome with
  | error cause => exact .error
  | ok form =>
      have nil := (suits_of_ofCall made).changed_eq_nil isCall unchanged
      refine .ok ⟨rfl, rfl, nil, Purifier.sourceCall_rename renamed info form, ?_, fun _ => reading⟩
      intro id _ isChanged
      rw [rename, nil] at isChanged
      exact absurd isChanged List.not_mem_nil

/-- The form of a changed call agrees with the form of the call it has come from. -/
theorem ReusePlan.Grants.matches_changed {plan : ReusePlan} {operand : NodeId} {info : ValueInfo}
    {later : Set NodeId} {reads : Prop} (grants : plan.Grants rules source.toInstruction operand)
    (functional : source.toInstruction.Functional rules) (separate : rules.Separate)
    (hasInfo : source.info = some info)
    (renamed : new.toInstruction =
      (plan.apply source.toInstruction).bind fun id => .ref (names id))
    (dead : ∀ id ∈ later, names id ≠ names operand) (submodules : Forest) :
    Outcome.Matches
      (Purifier.Agrees names later source new info { info with isMutation := true } reads)
      (PureForm.ofCall rules submodules source info).outcome
      (PureForm.ofCall rules submodules new { info with isMutation := true }).outcome := by
  obtain ⟨function, isFunction, impure⟩ := grants.function
  have isCall : source.op.isCall = true := by rw [isFunction]; rfl
  obtain ⟨known, found, isTensor, -, noInput⟩ := functional.info
  obtain rfl : info = known := Option.some.inj (hasInfo.symm.trans found)
  have isLocal : (info.isTensor && !info.isInputMutation) = true := by
    rw [isTensor, noInput]
    rfl
  -- The changed call before its references are renamed.
  let applied : Node := { source with toInstruction := plan.apply source.toInstruction }
  obtain ⟨form, made, op, nil, isPure, counted, kept⟩ :=
    grants.exists_form functional separate hasInfo submodules
  obtain ⟨changed, madeChanged, opChanged, only, isPureChanged, countedChanged, keptChanged⟩ :=
    @ReusePlan.Grants.exists_form_apply rules source applied plan operand
      { info with isMutation := true } grants functional rfl isLocal submodules
  have sameCall : Purifier.sourceCall { info with isMutation := true } changed applied =
      Purifier.sourceCall info form source := by
    rw [Purifier.sourceCall, Purifier.sourceCall, Purifier.pureCall, Purifier.pureCall, op,
      opChanged, kept, keptChanged, isPure, isPureChanged]
    rfl
  rw [made, @PureForm.outcome_ofCall_rename names applied new rules submodules isCall renamed,
    madeChanged]
  refine .ok ⟨opChanged.trans op.symm, countedChanged.trans counted.symm, nil, ?_, ?_, ?_⟩
  · rw [@Purifier.sourceCall_rename names applied new renamed, sameCall]
  · intro id isLater isChanged
    obtain ⟨other, isOther, same⟩ := List.mem_map.mp isChanged
    rw [only other isOther] at same
    exact dead id isLater same.symm
  · intro isRead
    rw [op, isFunction] at isRead
    exact absurd (Op.callFunction.inj isRead) (separate function impure).2

/-- A node and what has become of it are visited alike. -/
theorem Node.Became.visit (here : source.Became rules storage names rest new)
    (became : Graph.Became rules storage names program.graph.nodes graph.nodes)
    (wellFormed : program.graph.WellFormed) (wellFormedNew : graph.WellFormed)
    (closed : Graph.Closed ∅ program.graph.nodes) (separate : rules.Separate)
    (functional : source.op.isCall = true → source.toInstruction.Functional rules)
    (split : program.graph.nodes = visited ++ source :: rest)
    (alike : Purifier.Alike names (Graph.stillRead visited (source :: rest)) left right) :
    Outcome.Matches (Purifier.Alike names (Graph.stillRead (visited ++ [source]) rest))
      (left.visit rules program source).outcome
      (right.visit rules { program with graph } new).outcome := by
  have isNode : ∀ id ∈ visited.map Node.id, id ∈ program.graph.nodes.map Node.id := by
    intro id isVisited
    rw [split, List.map_append]
    exact List.mem_append_left _ isVisited
  have isSource : source.id ∈ program.graph.nodes.map Node.id := by simp [split]
  have absent := wellFormed.not_mem_before split
  have earlier : ∀ input ∈ source.inputs, input ∈ visited.map Node.id :=
    fun input isInput => (split ▸ closed).mem_before isInput
  have inputs : ∀ input ∈ source.inputs, input ∈ Graph.stillRead visited (source :: rest) :=
    fun input isInput => ⟨earlier input isInput, source, List.mem_cons_self, isInput⟩
  have subset : ∀ id ∈ Graph.stillRead (visited ++ [source]) rest, id = source.id ∨
      id ∈ Graph.stillRead visited (source :: rest) ∧ names id ≠ names source.id := by
    rintro id ⟨isVisited, reader, isReader, reads⟩
    rw [List.map_append, List.mem_append, List.map_singleton, List.mem_singleton] at isVisited
    refine isVisited.symm.imp_right fun isVisited =>
      ⟨⟨isVisited, reader, List.mem_cons_of_mem _ isReader, reads⟩, fun same => ?_⟩
    have equal := became.rename_inj wellFormedNew.distinct (isNode id isVisited) isSource same
    exact absent (equal ▸ isVisited)
  have ids := here.id_eq
  cases here with
  | kept same =>
      cases isCall : source.op.isCall with
      | false => exact alike.visitLeaf isCall inputs subset same
      | true =>
          obtain ⟨info, hasInfo, isTensor, -, -⟩ := (functional isCall).info
          refine alike.visitCall isCall isCall hasInfo hasInfo isTensor isTensor ids
            (PureForm.matches_kept isCall (functional isCall).unchanged rfl ?_ _) inputs subset
          exact AttributeRead.ofCall_matches became wellFormed wellFormedNew rfl
            fun input isInput => isNode input (earlier input isInput)
  | @changed plan operand name _ grants idle =>
      obtain ⟨function, isFunction, -⟩ := grants.function
      have isCall : source.op.isCall = true := by rw [isFunction]; rfl
      obtain ⟨info, hasInfo, isTensor, -, -⟩ := (functional isCall).info
      have hasNewInfo : (plan.apply source.toInstruction).info =
          some { info with isMutation := true } := by
        rw [ReusePlan.apply, hasInfo]
        rfl
      refine alike.visitCall isCall isCall hasInfo hasNewInfo isTensor isTensor ids
        (grants.matches_changed (functional isCall) separate hasInfo rfl ?_ _) inputs subset
      rintro id ⟨isVisited, reader, isReader, reads⟩ same
      have isNodeId : id ∈ program.graph.nodes.map Node.id := by
        rw [split, List.append_cons, List.map_append]
        exact List.mem_append_left _ isVisited
      obtain rfl := became.rename_inj wellFormedNew.distinct isNodeId
        (isNode operand (earlier operand grants.isInput)) same
      exact idle.unread reader isReader id reads rfl

/-- The remaining nodes and what has become of them are visited alike. -/
theorem Graph.Became.foldlM_visit {news : List Node}
    (later : Graph.Became rules storage names rest news)
    (became : Graph.Became rules storage names program.graph.nodes graph.nodes)
    (wellFormed : program.graph.WellFormed) (wellFormedNew : graph.WellFormed)
    (closed : Graph.Closed ∅ program.graph.nodes) (separate : rules.Separate)
    (functional : ∀ node ∈ program.graph.nodes, node.op.isCall = true →
      node.toInstruction.Functional rules)
    (split : program.graph.nodes = visited ++ rest)
    (alike : Purifier.Alike names (Graph.stillRead visited rest) left right) :
    Outcome.Matches (Purifier.Alike names ∅)
      (rest.foldlM (Purifier.visit rules program) left).outcome
      (news.foldlM (Purifier.visit rules { program with graph }) right).outcome := by
  induction later generalizing visited left right with
  | nil => exact .ok ⟨alike.graph, alike.tally, fun _ impossible => impossible.elim⟩
  | @cons source new rest news here _ ih =>
      rw [List.foldlM_cons, List.foldlM_cons, Report.outcome_bind, Report.outcome_bind]
      have isNode : source ∈ program.graph.nodes := by simp [split]
      refine (here.visit became wellFormed wellFormedNew closed separate (functional source isNode)
        split alike).bind fun nextLeft nextRight nextAlike => ih ?_ nextAlike
      rw [split, List.append_assoc, List.singleton_append]

end Lockstep

/-- Where the tracer saw no change, none is counted. -/
theorem PureForm.mutationKeys_eq_nil {rules : Rules} {submodules : Forest} {node : Node}
    {info : ValueInfo} {form : PureForm} (noMutation : info.isMutation = false)
    (formed : (ofCall rules submodules node info).outcome = .ok form) :
    mutationKeys form.counted = [] := by
  rcases mutationKeys_of_ofCall formed with ⟨nil, -⟩ | ⟨isLocal, impure, -⟩
  · exact nil
  · have suits := suits_of_ofCall formed
    obtain ⟨op, dropped, changed, isPure, counted⟩ := form
    cases suits with
    | flagged | received | variant => cases impure
    | operator | remaining =>
        rw [noMutation] at impure
        cases impure
    | other outside => cases isLocal.symm.trans outside

theorem PureForm.category_ne_mutation {keys : List TallyKey} (none : mutationKeys keys = [])
    (key : TallyKey) (isKey : key ∈ keys) : key.category ≠ .mutation := by
  intro isMutation
  have counted : key ∈ mutationKeys keys := List.mem_filter.mpr ⟨isKey, by simpa using isMutation⟩
  rw [none] at counted
  cases counted

/-- A purification of calls that change nothing counts no change. -/
theorem purify_entriesOf_mutation {rules : Rules} {program : Program} {graph : Graph}
    {tally : Tally}
    (functional : ∀ node ∈ program.graph.nodes, node.op.isCall = true →
      node.toInstruction.Functional rules)
    (success : (purify rules program).outcome = .ok (graph, tally)) :
    tally.entriesOf .mutation = [] := by
  have noKeys : ∀ {node : Node} {info : ValueInfo} {form : PureForm},
      node ∈ program.graph.nodes → node.op.isCall = true → node.info = some info →
      (PureForm.ofCall rules program.submodules node info).outcome = .ok form →
        PureForm.mutationKeys form.counted = [] := by
    intro node info form isNode isCall hasInfo formed
    obtain ⟨known, found, -, noMutation, -⟩ := (functional node isNode isCall).info
    obtain rfl : info = known := Option.some.inj (hasInfo.symm.trans found)
    exact PureForm.mutationKeys_eq_nil noMutation formed
  obtain ⟨env, none⟩ := purify_induction_steps
    (motive := fun _ purifier => purifier.tally.entriesOf .mutation = [])
    (by
      intro visited node rest purifier next split none step
      have isNode : node ∈ program.graph.nodes := by simp [split]
      cases step with
      | copied => exact none
      | folded isCall hasInfo formed isRead reading found =>
          refine Tally.entriesOf_countAll none (PureForm.category_ne_mutation ?_)
          rw [PureForm.mutationKeys_append, noKeys isNode isCall hasInfo formed,
            (AttributeRead.of_ofCall reading).2, List.append_nil]
      | called isCall hasInfo formed reading unread naming foundArgs foundKwargs =>
          refine Tally.entriesOf_countAll none (PureForm.category_ne_mutation ?_)
          rw [Purifier.mutationKeys_counted reading naming, noKeys isNode isCall hasInfo formed])
    rfl success
  exact none

/-- Purification undoes storage reuse.  For a valid program whose calls are of tensors and change
nothing, the pure forms of the program before and after storage reuse succeed together, with the
same graph and the same tally, in which no change is counted. -/
theorem purification_undoes_storage_reuse {accepts : Signatures} {program : Program}
    {graph : Graph} {calls : List ReusedCall} (wellFormed : program.graph.WellFormed)
    (valid : program.graph.validate = .ok ())
    (functional : ∀ node ∈ program.graph.nodes, node.op.isCall = true →
      node.toInstruction.Functional .standard)
    (success : reuseStorage .standard accepts program = .ok (graph, calls)) (result : Graph)
    (tally : Tally) :
    ((purify .standard { program with graph }).outcome = .ok (result, tally) ↔
        (purify .standard program).outcome = .ok (result, tally)) ∧
      ((purify .standard program).outcome = .ok (result, tally) →
        tally.entriesOf .mutation = []) := by
  have validSource := Graph.validate_eq_ok_iff.mp valid
  obtain ⟨storage, names, -, became⟩ := exists_became wellFormed validSource success
  obtain ⟨wellFormedNew, -⟩ := valid_reuseStorage wellFormed validSource success
  have alike : Purifier.Alike names (Graph.stillRead [] program.graph.nodes) {} {} :=
    ⟨rfl, rfl, fun _ isRead => absurd isRead.1 List.not_mem_nil⟩
  have runs := became.foldlM_visit became wellFormed wellFormedNew validSource.closed
    Rules.separate_standard functional rfl alike
  refine ⟨(Outcome.Matches.eq_ok_iff ?_).symm, purify_entriesOf_mutation functional⟩
  simp only [purify, Report.outcome_bind, Report.outcome_note, Report.outcome_pure]
  refine runs.bind fun left right same => .ok ?_
  rw [same.graph, same.tally]

/-- A chain of calls, one of them with a flag that is not set, and the read of an attribute. -/
def flaggedChain : Program where
  graph :=
    { nodes :=
        [{ op := .placeholder, id := ⟨0⟩, name := "input" },
          { op := .callFunction ⟨"torch.exp"⟩, args := [.ref ⟨0⟩], info := some {}, id := ⟨1⟩,
            name := "exp" },
          { op := .callFunction ⟨"torch.nn.functional.relu"⟩, args := [.ref ⟨1⟩],
            kwargs := (∅ : Kwargs NodeId).insert Rules.inplaceKeyword (.literal (.bool false)),
            info := some {}, id := ⟨2⟩, name := "relu" },
          { op := .callFunction ⟨"torch.tanh"⟩, args := [.ref ⟨2⟩],
            info := some { dtype := some "float32" }, id := ⟨3⟩, name := "tanh" },
          { op := .callFunction .getAttribute, args := [.ref ⟨3⟩, .literal (.text "dtype")],
            info := some {}, id := ⟨4⟩, name := "getattr" },
          { op := .output, args := [.ref ⟨3⟩, .ref ⟨4⟩], id := ⟨5⟩, name := "output" }]
      created := 6 }

theorem functional_flaggedChain : ∀ node ∈ flaggedChain.graph.nodes, node.op.isCall = true →
    node.toInstruction.Functional .standard := by
  have silent : ∀ node ∈ flaggedChain.graph.nodes,
      node.toInstruction.isVariant .standard = false ∧
        node.toInstruction.mutatedArgument? .standard = none := by decide +kernel
  intro node isNode isCall
  refine ⟨?_, (silent node isNode).1, (silent node isNode).2⟩
  simp only [flaggedChain, List.mem_cons, List.not_mem_nil, or_false] at isNode
  rcases isNode with rfl | rfl | rfl | rfl | rfl | rfl
  · cases isCall
  · exact ⟨_, rfl, rfl, rfl, rfl⟩
  · exact ⟨_, rfl, rfl, rfl, rfl⟩
  · exact ⟨_, rfl, rfl, rfl, rfl⟩
  · exact ⟨_, rfl, rfl, rfl, rfl⟩
  · cases isCall

theorem purification_undoes_storage_reuse_flaggedChain :
    ∃ graph calls result tally,
      reuseStorage .standard .standard flaggedChain = .ok (graph, calls) ∧ calls.length = 2 ∧
        (purify .standard flaggedChain).outcome = .ok (result, tally) ∧
          (purify .standard { flaggedChain with graph }).outcome = .ok (result, tally) ∧
            tally.entriesOf .mutation = [] := by
  obtain ⟨⟨graph, calls⟩, success, two⟩ : ∃ result,
      reuseStorage .standard .standard flaggedChain = .ok result ∧ result.2.length = 2 := by
    have two : (Prod.snd <$> reuseStorage .standard .standard flaggedChain).toOption.map
        List.length = some 2 := by decide +kernel
    cases made : reuseStorage .standard .standard flaggedChain with
    | error cause =>
        rw [made] at two
        cases two
    | ok result =>
        rw [made] at two
        exact ⟨result, rfl, Option.some.inj two⟩
  obtain ⟨result, tally, purified⟩ : ∃ result tally,
      (purify .standard flaggedChain).outcome = .ok (result, tally) := ⟨_, _, rfl⟩
  obtain ⟨same, none⟩ := purification_undoes_storage_reuse ⟨by decide, by decide⟩ (by decide)
    functional_flaggedChain success result tally
  exact ⟨graph, calls, result, tally, success, two, purified, same.mpr purified, none purified⟩

end OpGraph
