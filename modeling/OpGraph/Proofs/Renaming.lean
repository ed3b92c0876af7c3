import OpGraph.Proofs.Placement
import OpGraph.Proofs.PurificationSteps
import OpGraph.Proofs.Reading

/-!
# Purification under other names

The pure form of a call does not depend on how the nodes that it reads are called
(`PureForm.outcome_ofCall_rename`).  Two visits of a call, in environments that give the same values
under different names, succeed together and make the same call.
-/

namespace OpGraph

/-! ### Computations that succeed together -/

namespace Outcome

variable {α β γ δ : Type}

/-- Two computations both fail, or both succeed with related results. -/
inductive Matches (related : α → β → Prop) : Except Failure α → Except Failure β → Prop where
  | ok {left : α} {right : β} (holds : related left right) :
      Matches related (.ok left) (.ok right)
  | error {left right : Failure} : Matches related (.error left) (.error right)

namespace Matches

variable {related : α → β → Prop} {left : Except Failure α} {right : Except Failure β}

theorem bind {relatedNext : γ → δ → Prop} {nextLeft : α → Except Failure γ}
    {nextRight : β → Except Failure δ} (first : Matches related left right)
    (next : ∀ a b, related a b → Matches relatedNext (nextLeft a) (nextRight b)) :
    Matches relatedNext (left >>= nextLeft) (right >>= nextRight) := by
  cases first with
  | ok holds => exact next _ _ holds
  | error => exact .error

theorem map {relatedNext : γ → δ → Prop} {changeLeft : α → γ} {changeRight : β → δ}
    (first : Matches related left right)
    (change : ∀ a b, related a b → relatedNext (changeLeft a) (changeRight b)) :
    Matches relatedNext (changeLeft <$> left) (changeRight <$> right) := by
  cases first with
  | ok holds => exact .ok (change _ _ holds)
  | error => exact .error

/-- Computations that succeed together, with related results, match. -/
theorem of_eq_ok (forward : ∀ a, left = .ok a → ∃ b, right = .ok b ∧ related a b)
    (backward : ∀ b, right = .ok b → ∃ a, left = .ok a) : Matches related left right := by
  cases left with
  | ok a =>
      obtain ⟨b, success, holds⟩ := forward a rfl
      exact success ▸ .ok holds
  | error cause =>
      cases right with
      | ok b =>
          obtain ⟨a, success⟩ := backward b rfl
          cases success
      | error other => exact .error

theorem imp {relatedNext : α → β → Prop} (first : Matches related left right)
    (weaken : ∀ a b, related a b → relatedNext a b) : Matches relatedNext left right := by
  cases first with
  | ok holds => exact .ok (weaken _ _ holds)
  | error => exact .error

theorem and_eq_ok (first : Matches related left right) :
    Matches (fun a b => related a b ∧ left = .ok a) left right := by
  cases first with
  | ok holds => exact .ok ⟨holds, rfl⟩
  | error => exact .error

theorem eq_ok_iff {left right : Except Failure α} (same : Matches Eq left right) {value : α} :
    left = .ok value ↔ right = .ok value := by
  cases same with
  | ok holds => rw [holds]
  | error => simp

end Matches

end Outcome

/-! ### The form of a renamed call -/

theorem Node.longName_congr {node other : Node} (isCall : node.op.isCall = true)
    (op : other.op = node.op) (rules : Rules) (submodules : Forest) :
    other.longName rules submodules = node.longName rules submodules := by
  unfold longName shortName
  rw [op]
  cases isOp : node.op with
  | placeholder | output | getAttr => simp [isOp, Op.isCall] at isCall
  | callFunction | callMethod | callModule => rfl

namespace PureForm

variable {names : NodeId → NodeId} {node other : Node} {rules : Rules} {submodules : Forest}

/-- A form with other names for the changed nodes. -/
def rename (names : NodeId → NodeId) (form : PureForm) : PureForm :=
  { form with changed := form.changed.map names }

theorem rename_of_changed_eq_nil {form : PureForm} (unchanged : form.changed = [])
    (names : NodeId → NodeId) : form.rename names = form := by
  rw [rename, unchanged, List.map_nil, ← unchanged]

theorem isScalarDivision_bind_ref (names : NodeId → NodeId) (function : FunctionPath)
    (args : List Arg) :
    isScalarDivision function (Argument.bindAll (fun id => .ref (names id)) args) =
      isScalarDivision function args := by
  rw [isScalarDivision, isScalarDivision, Argument.bindAll_eq_map, List.all_map]
  simp only [Function.comp_def, Argument.asRef?_bind_ref, Option.isSome_map]

section Renamed

variable (isCall : node.op.isCall = true)
variable (renamed : other.toInstruction = node.toInstruction.bind fun id => .ref (names id))

include isCall renamed

theorem outcome_ofOperator_rename :
    (ofOperator rules submodules other).outcome = (ofOperator rules submodules node).outcome := by
  have op : other.op = node.op := by rw [renamed]; rfl
  have args : other.args = Argument.bindAll (fun id => .ref (names id)) node.args := by
    rw [renamed]
    rfl
  unfold ofOperator
  rw [op, args]
  split
  · split
    · rw [isScalarDivision_bind_ref]
      split
      · simp only [Report.outcome_bind, Report.outcome_note, Report.outcome_ofExcept,
          Node.longName_congr isCall op]
      · rfl
    · rfl
  · rfl

theorem outcome_ofRemaining_rename (info : ValueInfo) :
    (ofRemaining rules submodules other info).outcome =
      (ofRemaining rules submodules node info).outcome := by
  have op : other.op = node.op := by rw [renamed]; rfl
  simp only [ofRemaining, Report.outcome_bind, outcome_ofOperator_rename isCall renamed]
  congr 1
  funext form
  split
  · simp only [Report.outcome_bind, Report.outcome_ofExcept, Node.longName_congr isCall op]
  · rfl

/-- The form of a call under other names is its form with other names for the changed nodes. -/
theorem outcome_ofCall_rename (info : ValueInfo) :
    (ofCall rules submodules other info).outcome =
      rename names <$> (ofCall rules submodules node info).outcome := by
  have op : other.op = node.op := by rw [renamed]; rfl
  have first : other.firstRef? = node.firstRef?.map names := by
    rw [renamed, Instruction.firstRef?_bind_ref]
  have kwargs : ∀ keyword : String, other.kwargs[keyword]? =
      node.kwargs[keyword]?.map (Argument.bind fun id => .ref (names id)) := by
    intro keyword
    rw [renamed]
    exact Kwargs.getElem?_bind ..
  unfold ofCall
  split
  · unfold ofTensor
    rw [kwargs, kwargs, op, first]
    cases node.kwargs[Rules.inplaceKeyword]? with
    | some flag =>
        dsimp only [Option.map_some]
        rw [Argument.truth?_bind_ref]
        refine congrArg Except.ok (congrArg (PureForm.mk _ _ · _ _) ?_)
        split
        · cases node.firstRef? with
          | none => rfl
          | some target => rfl
        · rfl
    | none =>
        cases node.kwargs[Rules.outKeyword]? with
        | some receiver =>
            dsimp only [Option.map_some, Option.map_none]
            rw [Argument.asRef?_bind_ref]
            refine congrArg Except.ok (congrArg (PureForm.mk _ _ · _ _) ?_)
            cases receiver.asRef? with
            | none => rfl
            | some target => rfl
        | none =>
            dsimp only [Option.map_none]
            split
            · refine congrArg Except.ok (congrArg (PureForm.mk _ _ · _ _) ?_)
              cases node.firstRef? with
              | none => rfl
              | some target => rfl
            · rw [outcome_ofRemaining_rename isCall renamed]
              cases made : (ofRemaining rules submodules node info).outcome with
              | error cause => rfl
              | ok form =>
                  exact congrArg Except.ok
                    (rename_of_changed_eq_nil (ofRemaining_eq_ok made).2.1 names).symm
  · unfold ofOther
    split
    · simp only [Report.outcome_bind, Report.outcome_ofExcept, Node.longName_congr isCall op, op]
      cases node.longName rules submodules with
      | error cause => rfl
      | ok name => rfl
    · rw [op]
      rfl

end Renamed

end PureForm

/-! ### Reads of attributes -/

theorem Argument.asText?_bind_ref (names : NodeId → NodeId) (argument : Arg) :
    (argument.bind fun id => .ref (names id)).asText? = argument.asText? := by
  cases argument with
  | ref | tuple => rfl
  | literal value => rfl

/-- The read of an attribute gives the same under other names, if the nodes that are read have the
same attributes. -/
theorem AttributeRead.ofCall_rename {names : NodeId → NodeId} {graph otherGraph : Graph}
    {node other : Node}
    (renamed : other.toInstruction = node.toInstruction.bind fun id => .ref (names id))
    (sources : ∀ target ∈ node.inputs, Outcome.Matches
      (fun source otherSource => ∀ field : InfoField,
        Outcome.Matches (fun info otherInfo => field.read info = field.read otherInfo)
          (source.infoFor field) (otherSource.infoFor field))
      (graph.get target) (otherGraph.get (names target))) :
    Outcome.Matches Eq (ofCall graph node).outcome (ofCall otherGraph other).outcome := by
  have first : other.firstRef? = node.firstRef?.map names := by
    rw [renamed, Instruction.firstRef?_bind_ref]
  have text : other.args[1]?.bind Argument.asText? = node.args[1]?.bind Argument.asText? := by
    rw [renamed]
    show (Argument.bindAll _ node.args)[1]?.bind Argument.asText? = _
    rw [Argument.bindAll_eq_map, List.getElem?_map]
    cases node.args[1]? with
    | none => rfl
    | some argument => exact Argument.asText?_bind_ref names argument
  unfold ofCall
  rw [text, first]
  cases node.args[1]?.bind Argument.asText? with
  | none => exact .ok rfl
  | some attributeName =>
      dsimp only
      cases InfoField.ofAttribute? attributeName with
      | none => exact .ok rfl
      | some field =>
          cases isFirst : node.firstRef? with
          | none => exact .ok rfl
          | some target =>
              simp only [Option.map_some, Report.outcome_bind, Report.outcome_ofExcept]
              refine (sources target (Instruction.mem_inputs_of_firstRef? isFirst)).bind
                fun source otherSource attributes => ?_
              refine (attributes field).bind fun info otherInfo same => ?_
              rw [same]
              cases field.read otherInfo with
              | none => exact .error
              | some value => exact .ok rfl

/-! ### Visits of renamed calls -/

theorem Instruction.traverse_bind_ref {names : NodeId → NodeId}
    {left right : NodeId → Except Failure Arg} {instruction : Instruction}
    (same : ∀ input ∈ instruction.inputs, right (names input) = left input) :
    (instruction.bind fun id => .ref (names id)).traverse right = instruction.traverse left := by
  have args : Argument.traverseAll right
      (Argument.bindAll (fun id => .ref (names id)) instruction.args) =
        Argument.traverseAll left instruction.args := by
    rw [Argument.traverseAll_eq_mapM, Argument.traverseAll_eq_mapM, Argument.bindAll_eq_map,
      List.mapM_map]
    refine Outcome.mapM_congr fun item member => ?_
    rw [Function.comp_apply, Argument.traverse_bind]
    refine Argument.traverse_congr fun target isRef => same target ?_
    exact mem_inputs.mpr (Or.inl (Argument.mem_refsAll.mpr ⟨item, member, isRef⟩))
  have kwargs : Kwargs.traverse right (instruction.kwargs.bind fun id => .ref (names id)) =
      instruction.kwargs.traverse left := by
    rw [Kwargs.traverse_bind]
    exact Kwargs.traverse_congr fun target isRef => same target (mem_inputs.mpr (Or.inr isRef))
  show (Argument.traverseAll right (Argument.bindAll _ instruction.args) >>= fun args =>
    Kwargs.traverse right (Kwargs.bind _ instruction.kwargs) >>= fun kwargs =>
      pure { instruction with args, kwargs }) = _
  rw [args, kwargs]
  rfl

theorem Purifier.sourceCall_rename {names : NodeId → NodeId} {node other : Node}
    (renamed : other.toInstruction = node.toInstruction.bind fun id => .ref (names id))
    (info : ValueInfo) (form : PureForm) :
    sourceCall info (form.rename names) other =
      (sourceCall info form node).bind fun id => .ref (names id) := by
  have kept : (form.rename names).keptKwargs other.kwargs =
      (form.keptKwargs node.kwargs).bind fun id => .ref (names id) := by
    rw [renamed]
    obtain ⟨op, dropped, changed, isPure, counted⟩ := form
    cases dropped with
    | none => rfl
    | some keyword => exact (Kwargs.bind_erase ..).symm
  rw [sourceCall, kept, renamed]
  rfl

namespace Purifier

/-- Bind a call to a literal, if it has become one, or else make the call in its pure form. -/
def settle (purifier : Purifier) (node : Node) (info : ValueInfo) (form : PureForm) :
    Option Arg → Except Failure Purifier
  | some value => .ok (purifier.bind node.id value)
  | none =>
    (fun instruction =>
      { purifier with
        graph := purifier.graph.emit instruction none
        env := (purifier.env.rebindAll form.changed (.ref purifier.graph.nextId)).insert node.id
          (.ref purifier.graph.nextId) }) <$>
      (sourceCall info form node).traverse purifier.env.value

theorem outcome_emitCall_eq_settle (purifier : Purifier) (node : Node) (info : ValueInfo)
    (form : PureForm) :
    (purifier.emitCall node info form).outcome = purifier.settle node info form none := by
  have traversed : (sourceCall info form node).traverse purifier.env.value = (do
      let args ← Argument.traverseAll purifier.env.value node.args
      let kwargs ← Kwargs.traverse purifier.env.value (form.keptKwargs node.kwargs)
      pure (pureCall info form args kwargs)) := rfl
  rw [outcome_emitCall, settle, traversed, map_bind]
  simp only [map_bind, map_pure]

variable {rules : Rules} {program : Program} {node : Node} {info : ValueInfo}

/-- What there is to count of a call that is made, if its value is no tensor. -/
def nontensorKeys (rules : Rules) (submodules : Forest) (node : Node) (info : ValueInfo) :
    Option Arg → Except Failure (List TallyKey)
  | some _ => pure []
  | none =>
    if info.isTensor then pure []
    else (fun name => [⟨.nontensor, name⟩]) <$> node.longName rules submodules

/-- A visit of a call finds its form, folds the call if it is the read of an attribute, and settles
it. -/
theorem outcome_visit_of_call (isCall : node.op.isCall = true) (hasInfo : node.info = some info)
    (purifier : Purifier) :
    (purifier.visit rules program node).outcome = (do
      let form ← (PureForm.ofCall rules program.submodules node info).outcome
      let read ← (if form.op = .callFunction .getAttribute then
        AttributeRead.ofCall program.graph node else pure {}).outcome
      let keys ← nontensorKeys rules program.submodules node info read.value
      (purifier.count (form.counted ++ read.counted ++ keys)).settle node info form
        read.value) := by
  have known : node.infoFor .type = .ok info := by rw [Node.infoFor, hasInfo]
  rw [visit, if_pos isCall]
  simp only [visitCall, Report.outcome_bind, Report.outcome_ofExcept, known, count_count]
  show (PureForm.ofCall rules program.submodules node info).outcome >>= _ = _
  congr 1
  funext form
  have settled : ∀ read : AttributeRead, Report.outcome
      (match read.value with
      | some value => pure ((purifier.count (form.counted ++ read.counted)).bind node.id value)
      | none =>
        if info.isTensor = true then
          (purifier.count (form.counted ++ read.counted)).emitCall node info form
        else do
          let name ← Report.ofExcept (node.longName rules program.submodules)
          (purifier.count (form.counted ++ read.counted ++ [⟨.nontensor, name⟩])).emitCall node info
            form) = (do
        let keys ← nontensorKeys rules program.submodules node info read.value
        (purifier.count (form.counted ++ read.counted ++ keys)).settle node info form
          read.value) := by
    intro read
    cases read.value with
    | some value =>
        rw [nontensorKeys, pure_bind, List.append_nil]
        rfl
    | none =>
        rw [nontensorKeys]
        dsimp only
        split
        · rw [pure_bind, List.append_nil]
          exact outcome_emitCall_eq_settle _ node info form
        · rw [Report.outcome_bind, Report.outcome_ofExcept]
          cases node.longName rules program.submodules with
          | error cause => rfl
          | ok name => exact outcome_emitCall_eq_settle _ node info form
  split
  · next isRead =>
    rw [Report.outcome_bind]
    congr 1
    funext read
    exact settled read
  · next noRead => exact settled {}

/-- Nothing more is counted of a tensor call. -/
theorem outcome_visit_of_isTensor (isCall : node.op.isCall = true) (hasInfo : node.info = some info)
    (isTensor : info.isTensor = true) (purifier : Purifier) :
    (purifier.visit rules program node).outcome = (do
      let form ← (PureForm.ofCall rules program.submodules node info).outcome
      let read ← (if form.op = .callFunction .getAttribute then
        AttributeRead.ofCall program.graph node else pure {}).outcome
      (purifier.count (form.counted ++ read.counted)).settle node info form read.value) := by
  have none : ∀ value : Option Arg,
      nontensorKeys rules program.submodules node info value = pure [] := by
    intro value
    cases value with
    | some value => rfl
    | none => exact if_pos isTensor
  rw [outcome_visit_of_call isCall hasInfo]
  simp only [none, pure_bind, List.append_nil]

theorem outcome_visit_of_leaf (noCall : node.op.isCall = false) (purifier : Purifier) :
    (purifier.visit rules program node).outcome =
      (fun instruction =>
        { purifier with
          graph := purifier.graph.emit instruction node.copyHint
          env := purifier.env.insert node.id (.ref purifier.graph.nextId) }) <$>
        node.toInstruction.traverse purifier.env.value := by
  rw [visit, noCall]
  show (purifier.copy node) = _
  rw [copy, Graph.emitCopy]
  cases node.toInstruction.traverse purifier.env.value with
  | error cause => rfl
  | ok instruction => rfl

/-- Two purifications have made the same graph and counted the same, and the values of readable
nodes are the same under different names. -/
structure Alike (names : NodeId → NodeId) (readable : Set NodeId) (left right : Purifier) :
    Prop where
  graph : left.graph = right.graph
  tally : left.tally = right.tally
  values : ∀ id ∈ readable, ∃ value,
    left.env[id]? = some value ∧ right.env[names id]? = some value

namespace Alike

variable {names : NodeId → NodeId} {readable later : Set NodeId} {left right : Purifier}

/-- What reads readable nodes becomes the same. -/
theorem traverse (alike : Alike names readable left right) {instruction : Instruction}
    (reads : ∀ input ∈ instruction.inputs, input ∈ readable) :
    (instruction.bind fun id => .ref (names id)).traverse right.env.value =
      instruction.traverse left.env.value := by
  have look : ∀ input ∈ instruction.inputs,
      right.env.value (names input) = left.env.value input := by
    intro input isInput
    obtain ⟨value, isLeft, isRight⟩ := alike.values input (reads input isInput)
    rw [Env.value_eq_ok_iff.mpr isLeft, Env.value_eq_ok_iff.mpr isRight]
  exact Instruction.traverse_bind_ref look

theorem count (alike : Alike names readable left right) (keys : List TallyKey) :
    Alike names readable (left.count keys) (right.count keys) :=
  ⟨alike.graph, by rw [Purifier.count, Purifier.count, alike.tally], alike.values⟩

/-- Binding a node and its other name to one value, and names that are not read any more to
anything, keeps the values of readable nodes the same. -/
theorem values_insert (alike : Alike names readable left right) {id : NodeId} {value : Arg}
    {dead : List NodeId}
    (subset : ∀ other ∈ later, other = id ∨
      other ∈ readable ∧ names other ≠ names id ∧ names other ∉ dead) :
    ∀ other ∈ later, ∃ found, (left.env.insert id value : Env)[other]? = some found ∧
      ((right.env.rebindAll dead value).insert (names id) value : Env)[names other]? =
        some found := by
  intro other isLater
  by_cases same : other = id
  · subst same
    exact ⟨value, Std.ExtTreeMap.getElem?_insert_self, Std.ExtTreeMap.getElem?_insert_self⟩
  · obtain ⟨isReadable, different, alive⟩ := (subset other isLater).resolve_left same
    obtain ⟨old, isLeft, isRight⟩ := alike.values other isReadable
    refine ⟨old, ?_, ?_⟩
    · rw [Env.getElem?_insert_of_ne same, isLeft]
    · rw [Env.getElem?_insert_of_ne different, Env.getElem?_rebindAll,
        if_neg fun both => alive both.1, isRight]

/-- Two calls whose pure forms read the same nodes under different names are settled alike. -/
theorem settle (alike : Alike names readable left right) {node other : Node}
    {info otherInfo : ValueInfo} {form otherForm : PureForm} (id : other.id = names node.id)
    (unchanged : form.changed = [])
    (renamed : sourceCall otherInfo otherForm other =
      (sourceCall info form node).bind fun id => .ref (names id))
    (reads : ∀ input ∈ (sourceCall info form node).inputs, input ∈ readable)
    (subset : ∀ other ∈ later, other = node.id ∨
      other ∈ readable ∧ names other ≠ names node.id ∧ names other ∉ otherForm.changed)
    (value : Option Arg) :
    Outcome.Matches (Alike names later) (left.settle node info form value)
      (right.settle other otherInfo otherForm value) := by
  cases value with
  | some value =>
      rw [Purifier.settle, Purifier.settle, Purifier.bind, Purifier.bind, id]
      refine .ok ⟨alike.graph, alike.tally, ?_⟩
      exact @values_insert names readable later left right alike node.id value []
        fun other isLater => (subset other isLater).imp_right
          fun found => ⟨found.1, found.2.1, List.not_mem_nil⟩
  | none =>
      rw [Purifier.settle, Purifier.settle, renamed, alike.traverse reads, unchanged, id]
      cases (sourceCall info form node).traverse left.env.value with
      | error cause => exact .error
      | ok instruction =>
          rw [← alike.graph]
          exact .ok ⟨rfl, alike.tally, alike.values_insert subset⟩

end Alike

end Purifier

end OpGraph
