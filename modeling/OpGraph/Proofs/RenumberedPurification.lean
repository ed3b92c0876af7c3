import OpGraph.Proofs.PurificationMeaning
import OpGraph.Proofs.Renumbering

/-!
# Purification of renumbered graphs

Purification copies its source into a new graph, so two numberings are kept: one of the nodes of the
source and one of the copies.  The form of a call does not depend on numbers, and the recorded
values of corresponding nodes are the same.  A changed node is read by the call that changes it, so
it is bound anew on both sides or on neither.
-/

namespace OpGraph

/-- The changed nodes are read by the call. -/
theorem PureForm.Suits.mem_inputs_of_mem_changed {rules : Rules} {node : Node} {info : ValueInfo}
    {op : Op} {dropped : Option String} {changed : List NodeId} {isPure : Bool}
    (suits : Suits rules node info op dropped changed isPure) {id : NodeId}
    (isChanged : id ∈ changed) : id ∈ node.inputs := by
  have first : id ∈ node.firstRef?.toList → id ∈ node.inputs := fun isFirst =>
    Instruction.mem_inputs_of_firstRef? (Option.mem_toList.mp isFirst)
  cases suits with
  | flagged =>
      split at isChanged
      · exact first isChanged
      · cases isChanged
  | @received receiver _ _ _ found =>
      have isRef := Option.mem_toList.mp isChanged
      refine Instruction.mem_inputs.mpr (Or.inr (Kwargs.mem_refs.mpr ⟨_, receiver, found, ?_⟩))
      rw [Argument.eq_ref_of_asRef? isRef]
      exact List.mem_singleton_self _
  | variant => exact first isChanged
  | operator | remaining | other => cases isChanged

namespace Numbering

variable {sources targets : Numbering}

namespace EnvPair

variable {left right : Env}

theorem contains (envs : sources.EnvPair targets left right) {id : NodeId}
    (isKnown : id ∈ sources.known) :
    right.contains (sources.number id) = left.contains id := by
  have found := envs id isKnown
  rw [Std.ExtTreeMap.contains_eq_isSome_getElem?, Std.ExtTreeMap.contains_eq_isSome_getElem?]
  generalize left[id]? = first, right[sources.number id]? = second at found
  cases found with
  | some values => rfl
  | none => rfl

/-- Corresponding nodes are bound anew on both sides or on neither. -/
theorem rebindAll (envs : sources.EnvPair targets left right) {changed : List NodeId}
    (areKnown : ∀ id ∈ changed, id ∈ sources.known) {value valueRight : Arg}
    (values : targets.ArgPair value valueRight) :
    sources.EnvPair targets (left.rebindAll changed value)
      (right.rebindAll (changed.map sources.number) valueRight) := by
  intro id isKnown
  have isChanged : sources.number id ∈ changed.map sources.number ↔ id ∈ changed := by
    constructor
    · intro member
      obtain ⟨other, isOther, equal⟩ := List.mem_map.mp member
      exact sources.injective (areKnown other isOther) isKnown equal ▸ isOther
    · exact List.mem_map_of_mem
  simp only [Env.getElem?_rebindAll, isChanged, envs.contains isKnown]
  split
  · exact .some values
  · exact envs id isKnown

end EnvPair

/-! ### Attribute reads -/

/-- Corresponding attribute reads are folded on both sides or on neither, to the same value. -/
theorem attributeRead {graph graphRight : Graph} (graphs : sources.GraphPair graph graphRight)
    {node nodeRight : Node} (nodes : sources.NodePair node nodeRight) :
    Outcome.Matches Eq (AttributeRead.ofCall graph node).outcome
      (AttributeRead.ofCall graphRight nodeRight).outcome := by
  refine AttributeRead.ofCall_rename nodes.instruction.eq fun target isInput => ?_
  refine (graphs.get (nodes.instruction.reads target isInput)).imp ?_
  intro source sourceRight found field
  have info : sourceRight.info = source.info := found.instruction.info_eq
  rw [Node.infoFor, Node.infoFor, info]
  cases source.info with
  | none => exact .error
  | some info => exact .ok rfl

/-! ### Visits -/

/-- Two purifications that have counted the same, and whose copies and values correspond. -/
structure PurifierPair (sources targets : Numbering) (left right : Purifier) : Prop where
  graphs : targets.GraphPair left.graph right.graph
  aims : targets.Aims left.graph right.graph
  envs : sources.EnvPair targets left.env right.env
  tally : left.tally = right.tally

/-- Two purifications of renumbered nodes that are alike under some numbering of the copies. -/
def Purified (sources : Numbering) (left right : Purifier) : Prop :=
  ∃ targets : Numbering, sources.PurifierPair targets left right

namespace PurifierPair

variable {left right : Purifier} {node nodeRight : Node}

theorem count (purifiers : sources.PurifierPair targets left right) (keys : List TallyKey) :
    sources.PurifierPair targets (left.count keys) (right.count keys) :=
  ⟨purifiers.graphs, purifiers.aims, purifiers.envs,
    by rw [Purifier.count, Purifier.count, purifiers.tally]⟩

/-- A node is created on both sides, and the nodes that it stands for are bound to it. -/
theorem emit (purifiers : sources.PurifierPair targets left right)
    (nodes : sources.NodePair node nodeRight)
    {instruction instructionRight : Instruction}
    (instructions : targets.InstructionPair instruction instructionRight)
    (hint hintRight : Option String) {changed : List NodeId}
    (areKnown : ∀ id ∈ changed, id ∈ sources.known) :
    sources.Purified
      { left with
        graph := left.graph.emit instruction hint
        env := (left.env.rebindAll changed (.ref left.graph.nextId)).insert node.id
          (.ref left.graph.nextId) }
      { right with
        graph := right.graph.emit instructionRight hintRight
        env := (right.env.rebindAll (changed.map sources.number) (.ref right.graph.nextId)).insert
          nodeRight.id (.ref right.graph.nextId) } := by
  have aims := purifiers.aims.mono purifiers.graphs.next_extends
  have results := purifiers.graphs.argPair_nextId
  have envs := (purifiers.envs.mono purifiers.graphs.next_extends).rebindAll areKnown results
  refine ⟨purifiers.graphs.next,
    purifiers.graphs.emit purifiers.aims instructions hint hintRight, ⟨aims.isKnown, aims.eq⟩, ?_,
    purifiers.tally⟩
  rw [nodes.id]
  exact envs.insert nodes.isKnown results

/-- Corresponding calls with corresponding forms are made on both sides or on neither. -/
theorem settle (purifiers : sources.PurifierPair targets left right)
    (nodes : sources.NodePair node nodeRight) (info : ValueInfo) {form : PureForm}
    (areKnown : ∀ id ∈ form.changed, id ∈ sources.known) {value : Option Arg}
    (isText : ∀ argument ∈ value, ∃ text : String, argument = .literal (.text text)) :
    Outcome.Matches sources.Purified (left.settle node info form value)
      (right.settle nodeRight info (form.rename sources.number) value) := by
  cases value with
  | some argument =>
      obtain ⟨text, rfl⟩ := isText argument rfl
      have literals : targets.ArgPair (.literal (.text text)) (.literal (.text text)) :=
        ⟨fun id isRef => (List.not_mem_nil isRef).elim, rfl⟩
      refine .ok ⟨targets, purifiers.graphs, purifiers.aims, ?_, purifiers.tally⟩
      rw [Purifier.bind, Purifier.bind, nodes.id]
      exact purifiers.envs.insert nodes.isKnown literals
  | none =>
      have calls : sources.InstructionPair (Purifier.sourceCall info form node)
          (Purifier.sourceCall info (form.rename sources.number) nodeRight) :=
        ⟨fun input isInput =>
          nodes.instruction.reads input (Purifier.mem_inputs_of_mem_sourceCall isInput),
          Purifier.sourceCall_rename nodes.instruction.eq info form⟩
      refine (purifiers.envs.traverseInstruction calls).map fun _ _ instructions => ?_
      exact purifiers.emit nodes instructions none none areKnown

variable {rules : Rules} {program programRight : Program}

theorem visitCall (purifiers : sources.PurifierPair targets left right)
    (graphs : sources.GraphPair program.graph programRight.graph)
    (submodules : programRight.submodules = program.submodules)
    (nodes : sources.NodePair node nodeRight) (isCall : node.op.isCall = true) :
    Outcome.Matches sources.Purified (left.visit rules program node).outcome
      (right.visit rules programRight nodeRight).outcome := by
  have op : nodeRight.op = node.op := nodes.instruction.op_eq
  have sameInfo : nodeRight.info = node.info := nodes.instruction.info_eq
  have isCallRight : nodeRight.op.isCall = true := op ▸ isCall
  cases hasInfo : node.info with
  | none =>
      rw [Purifier.visit, Purifier.visit, if_pos isCall, if_pos isCallRight]
      simp only [Purifier.visitCall, Report.outcome_bind, Report.outcome_ofExcept, Node.infoFor,
        sameInfo, hasInfo]
      exact .error
  | some info =>
      rw [Purifier.outcome_visit_of_call isCall hasInfo,
        Purifier.outcome_visit_of_call isCallRight (sameInfo.trans hasInfo), submodules,
        PureForm.outcome_ofCall_rename isCall nodes.instruction.eq]
      cases formed : (PureForm.ofCall rules program.submodules node info).outcome with
      | error cause => exact .error
      | ok form =>
          have areKnown : ∀ id ∈ form.changed, id ∈ sources.known := fun id isChanged =>
            nodes.instruction.reads id
              ((PureForm.suits_of_ofCall formed).mem_inputs_of_mem_changed isChanged)
          have keys (value : Option Arg) :
              Purifier.nontensorKeys rules program.submodules nodeRight info value =
                Purifier.nontensorKeys rules program.submodules node info value := by
            unfold Purifier.nontensorKeys
            rw [Node.longName_congr isCall op]
          have reads : Outcome.Matches
              (fun read readRight => read = readRight ∧
                ∀ value ∈ read.value, ∃ text : String, value = .literal (.text text))
              (if form.op = .callFunction .getAttribute then
                AttributeRead.ofCall program.graph node else pure {}).outcome
              (if form.op = .callFunction .getAttribute then
                AttributeRead.ofCall programRight.graph nodeRight else pure {}).outcome := by
            split
            · refine (attributeRead graphs nodes).and_eq_ok.imp fun read readRight same => ?_
              exact ⟨same.1, fun value found => Purifier.value_of_ofCall same.2 found⟩
            · exact .ok ⟨rfl, fun value found => by cases found⟩
          refine reads.bind ?_
          rintro read _ ⟨rfl, isText⟩
          rw [keys]
          cases Purifier.nontensorKeys rules program.submodules node info read.value with
          | error cause => exact .error
          | ok counted => exact (purifiers.count _).settle nodes info areKnown isText

theorem visit (purifiers : sources.PurifierPair targets left right)
    (graphs : sources.GraphPair program.graph programRight.graph)
    (submodules : programRight.submodules = program.submodules)
    (nodes : sources.NodePair node nodeRight) :
    Outcome.Matches sources.Purified (left.visit rules program node).outcome
      (right.visit rules programRight nodeRight).outcome := by
  have op : nodeRight.op = node.op := nodes.instruction.op_eq
  cases isCall : node.op.isCall with
  | true => exact purifiers.visitCall graphs submodules nodes isCall
  | false =>
      rw [Purifier.outcome_visit_of_leaf isCall, Purifier.outcome_visit_of_leaf (op ▸ isCall)]
      refine (purifiers.envs.traverseInstruction nodes.instruction).map fun _ _ instructions => ?_
      exact purifiers.emit nodes instructions node.copyHint nodeRight.copyHint
        fun id isChanged => (List.not_mem_nil isChanged).elim

end PurifierPair

/-- Visits of corresponding nodes keep the purifications alike. -/
theorem Purified.run {program programRight : Program} {rules : Rules}
    (graphs : sources.GraphPair program.graph programRight.graph)
    (submodules : programRight.submodules = program.submodules) {nodes nodesRight : List Node}
    (all : List.Forall₂ sources.NodePair nodes nodesRight) {left right : Purifier}
    (purified : sources.Purified left right) :
    Outcome.Matches sources.Purified (nodes.foldlM (Purifier.visit rules program) left).outcome
      (nodesRight.foldlM (Purifier.visit rules programRight) right).outcome := by
  induction all generalizing left right with
  | nil => exact .ok purified
  | cons here _ ih =>
      obtain ⟨targets, purifiers⟩ := purified
      rw [List.foldlM_cons, List.foldlM_cons, Report.outcome_bind, Report.outcome_bind]
      exact (purifiers.visit graphs submodules here).bind fun _ _ visited => ih visited

end Numbering

/-- Purification does not depend on numbers and names. -/
theorem purify_renumbered {left right : Program} {numbering : Numbering}
    (graphs : numbering.GraphPair left.graph right.graph)
    (submodules : right.submodules = left.submodules) (rules : Rules) :
    Outcome.Matches
      (fun purified purifiedRight => purified.1.Renumbered purifiedRight.1 ∧
        purified.2 = purifiedRight.2)
      (purify rules left).outcome (purify rules right).outcome := by
  have start : numbering.Purified {} {} := by
    refine ⟨⟨∅, id, Set.injOn_empty _⟩, ⟨.nil, ?_, ?_⟩, ⟨?_, rfl⟩, .empty _ _, rfl⟩
    · exact fun id isKnown => isKnown.elim
    · exact fun id isKnown => isKnown.elim
    · intro anchor isAnchor
      cases isAnchor
  simp only [purify, Report.outcome_bind]
  refine (Numbering.Purified.run graphs submodules graphs.nodes start).bind ?_
  rintro purifier purifierRight ⟨targets, purifiers⟩
  exact .ok ⟨purifiers.graphs.renumbered, purifiers.tally⟩

end OpGraph
