import OpGraph.Proofs.Purity

/-!
# Changed nodes and their bindings

Which node a call changes is decided twice: by `Instruction.mutatedArgument?`, which looks for a
receiver first, and by the pure form of the call, which looks for a flag first.  Where the call
changes nothing, its form changes nothing either.  Where it changes a node, purification binds this
node and no other to the new call, or leaves the call with its mark and counts it, exactly if the
flag of the call, or else its receiver, names the changed node and the call does not become a
literal (`Purifier.Step.accounts_iff`).
-/

namespace OpGraph

/-- The flag of a call, or else its receiver, names the node that the call changes. -/
structure Instruction.Agrees (instruction : Instruction) (target : NodeId) : Prop where
  flag : ∀ flag, instruction.kwargs[Rules.inplaceKeyword]? = some flag →
    flag.truth? = some true ∧ instruction.firstRef? = some target
  receiver : instruction.kwargs[Rules.inplaceKeyword]? = none →
    ∀ receiver, instruction.kwargs[Rules.outKeyword]? = some receiver → receiver = .ref target

/-- A call without keyword arguments about storage names nothing. -/
theorem Instruction.agrees_of_none {instruction : Instruction}
    (flagless : instruction.kwargs[Rules.inplaceKeyword]? = none)
    (receiverless : instruction.kwargs[Rules.outKeyword]? = none) (target : NodeId) :
    instruction.Agrees target where
  flag flag isFlag := by cases flagless.symm.trans isFlag
  receiver _ receiver isReceiver := by cases receiverless.symm.trans isReceiver

/-- A call that asks for nothing changes a node only by the word of the tracer. -/
theorem Instruction.isMarked_of_mutatedArgument? {rules : Rules} {instruction : Instruction}
    {target : NodeId} (flagless : instruction.kwargs[Rules.inplaceKeyword]? = none)
    (receiverless : instruction.kwargs[Rules.outKeyword]? = none)
    (invariant : instruction.op.function?.bind rules.pureVariant? = none)
    (found : instruction.mutatedArgument? rules = some target) : instruction.isMarked = true := by
  by_contra unmarked
  rw [mutatedArgument?_eq_none flagless receiverless _ (Bool.eq_false_of_not_eq_true unmarked)]
    at found
  · cases found
  · rw [isVariant_eq, invariant]
    rfl

/-! ### The changed nodes of a form -/

namespace PureForm.Suits

variable {rules : Rules} {node : Node} {info : ValueInfo} {op : Op} {dropped : Option String}
variable {changed : List NodeId} {isPure : Bool}

/-- A form changes one node at most. -/
theorem changed_subsingleton (suits : Suits rules node info op dropped changed isPure) :
    ∃ only : Option NodeId, changed = only.toList := by
  cases suits with
  | @flagged flag =>
      by_cases isTrue : flag.truth? = some true
      · exact ⟨node.firstRef?, if_pos isTrue⟩
      · exact ⟨none, if_neg isTrue⟩
  | received | variant => exact ⟨_, rfl⟩
  | operator | remaining | other => exact ⟨none, rfl⟩

/-- The form of a call that changes nothing changes nothing. -/
theorem changed_eq_nil (suits : Suits rules node info op dropped changed isPure)
    (isCall : node.op.isCall = true)
    (unchanged : node.toInstruction.mutatedArgument? rules = none) : changed = [] := by
  have noReceiver : node.kwargs[Rules.outKeyword]?.bind Argument.asRef? = none := by
    cases receiver : node.kwargs[Rules.outKeyword]?.bind Argument.asRef? with
    | none => rfl
    | some target =>
        rw [Instruction.mutatedArgument?, if_pos isCall, receiver] at unchanged
        cases unchanged
  rw [Instruction.mutatedArgument?_of_noReceiver isCall noReceiver] at unchanged
  cases suits with
  | @flagged flag _ _ found =>
      by_cases isTrue : flag.truth? = some true
      · have flagged : node.toInstruction.isFlagged = true := by
          rw [Instruction.isFlagged, found, Option.bind_some, isTrue]
          rfl
        rw [flagged, Bool.true_or, Bool.true_or, if_pos rfl] at unchanged
        rw [if_pos isTrue, unchanged]
        rfl
      · exact if_neg isTrue
  | received _ _ _ found =>
      rw [found, Option.bind_some] at noReceiver
      rw [noReceiver]
      rfl
  | variant _ _ _ _ found =>
      have isVariant : node.toInstruction.isVariant rules = true := by
        rw [Instruction.isVariant_eq, found]
        rfl
      rw [isVariant, Bool.or_true, Bool.true_or, if_pos rfl] at unchanged
      rw [unchanged]
      rfl
  | operator | remaining | other => rfl

/-- The form of a tensor call is pure and changes the node that the call changes exactly if the
call names it, or the form is not pure and the call names nothing else. -/
theorem mem_changed_iff (suits : Suits rules node info op dropped changed isPure)
    (hasInfo : node.info = some info)
    (isLocal : (info.isTensor && !info.isInputMutation) = true) {target : NodeId}
    (found : node.toInstruction.mutatedArgument? rules = some target) :
    (isPure = true ∧ (target ∈ changed ↔ node.toInstruction.Agrees target)) ∨
      (isPure = false ∧ changed = [] ∧ node.toInstruction.Agrees target) := by
  have marking : node.toInstruction.isMarked = info.isMutation := by
    rw [Instruction.isMarked, hasInfo]
  cases suits with
  | @flagged flag _ _ isFlag =>
      refine Or.inl ⟨rfl, fun isChanged => ?_, fun agrees => ?_⟩
      · refine ⟨fun other isOther => ?_, fun flagless => ?_⟩
        · obtain rfl := Option.some.inj (isFlag.symm.trans isOther)
          split at isChanged
          · next isTrue => exact ⟨isTrue, by simpa using isChanged⟩
          · cases isChanged
        · cases isFlag.symm.trans flagless
      · obtain ⟨isTrue, first⟩ := agrees.flag flag isFlag
        rw [if_pos isTrue, first]
        exact List.mem_singleton_self _
  | @received receiver _ _ flagless isReceiver =>
      refine Or.inl ⟨rfl, fun isChanged => ?_, fun agrees => ?_⟩
      · refine ⟨fun flag isFlag => ?_, fun _ other isOther => ?_⟩
        · cases flagless.symm.trans isFlag
        · obtain rfl := Option.some.inj (isReceiver.symm.trans isOther)
          exact Argument.eq_ref_of_asRef? (by simpa using isChanged)
      · rw [agrees.receiver flagless receiver isReceiver]
        exact List.mem_singleton_self _
  | variant _ _ flagless receiverless isVariant =>
      refine Or.inl ⟨rfl, fun _ => Instruction.agrees_of_none flagless receiverless target,
        fun _ => ?_⟩
      rcases Instruction.mutatedArgument?_eq_some found with isReceiver | first
      · rw [receiverless] at isReceiver
        cases isReceiver
      · rw [first]
        exact List.mem_singleton_self _
  | operator _ _ flagless receiverless invariant | remaining _ _ flagless receiverless invariant =>
      have marked := Instruction.isMarked_of_mutatedArgument? flagless receiverless invariant found
      refine Or.inr ⟨?_, rfl, Instruction.agrees_of_none flagless receiverless target⟩
      rw [← marking, marked]
      rfl
  | other outside => cases isLocal.symm.trans outside

end PureForm.Suits

/-! ### Visits of calls that change a node -/

namespace Purifier

variable {rules : Rules} {program : Program} {node : Node} {visited : List Node}
variable {before after : Purifier} {target : NodeId}

/-- A visit makes a call without the mark of the tracer, and binds a node and no other one but the
call to it. -/
structure Rebinds (node : Node) (target : NodeId) (before after : Purifier) : Prop where
  made : ∃ new : Node, after.graph.nodes = before.graph.nodes ++ [new] ∧
    new.toInstruction.isMarked = false ∧ after.env[target]? = some (.ref new.id)
  others : ∀ id, id ≠ node.id → id ≠ target → after.env[id]? = before.env[id]?

/-- A visit makes a call with the mark of the tracer, binds nothing but the call, and counts one
change under the name of the call. -/
structure Keeps (rules : Rules) (program : Program) (node : Node) (before after : Purifier) :
    Prop where
  made : ∃ new : Node, after.graph.nodes = before.graph.nodes ++ [new] ∧
    new.toInstruction.isMarked = true
  others : ∀ id, id ≠ node.id → after.env[id]? = before.env[id]?
  named : ∃ name, node.longName rules program.submodules = .ok name ∧
    after.tally.count .mutation name = before.tally.count .mutation name + 1
  once : after.tally.total .mutation = before.tally.total .mutation + 1

/-- The visited nodes have values. -/
structure Ready (visited : List Node) (purifier : Purifier) : Prop where
  stage : Stage visited purifier.graph purifier.env
  bound : ∀ id ∈ visited.map Node.id, purifier.env.contains id = true

theorem Ready.step (ready : Ready visited before) (step : Step rules program node before after) :
    Ready (visited ++ [node]) after := by
  refine ⟨ready.stage.visit step.visit, fun id isVisited => ?_⟩
  have grown : ∀ env : Env, (∀ id, env.contains id = before.env.contains id) → ∀ value : Arg,
      Std.ExtTreeMap.contains (env.insert node.id value) id = true := by
    intro env same value
    rw [Std.ExtTreeMap.contains_insert, same]
    rw [List.map_append, List.mem_append] at isVisited
    rcases isVisited with earlier | isNode
    · rw [ready.bound id earlier, Bool.or_true]
    · obtain rfl := List.mem_singleton.mp isNode
      simp
  cases step with
  | copied => exact grown _ (fun _ => rfl) _
  | folded => exact grown _ (fun _ => rfl) _
  | called => exact grown _ (fun id => Env.contains_rebindAll before.env _ _ id) _

theorem ready_start : Ready [] {} :=
  ⟨stage_start, fun _ isVisited => absurd isVisited List.not_mem_nil⟩

/-- A node that has a value is not bound to a node that is yet to be made. -/
theorem Ready.getElem?_ne (ready : Ready visited before) (id : NodeId) :
    before.env[id]? ≠ some (.ref before.graph.nextId) := by
  intro bound
  exact ready.stage.wellFormed.nextId_not_mem
    (ready.stage.within id _ bound _ (List.mem_singleton_self _))

theorem count_mutation_count (purifier : Purifier) (keys : List TallyKey) (name : String) :
    (purifier.count keys).tally.count .mutation name =
      purifier.tally.count .mutation name +
        (PureForm.mutationKeys keys).count ⟨.mutation, name⟩ := by
  rw [PureForm.mutationKeys, List.count_filter (by simp)]
  exact Tally.count_countAll purifier.tally keys .mutation name

/-- Only the form of a call counts changes. -/
theorem mutationKeys_counted {info : ValueInfo} {form : PureForm} {read : AttributeRead}
    {extra : List TallyKey}
    (reading : (if form.op = .callFunction .getAttribute then
      AttributeRead.ofCall program.graph node else pure {}).outcome = .ok read)
    (naming : (if info.isTensor then .ok []
      else (fun name => [⟨.nontensor, name⟩]) <$> node.longName rules program.submodules) =
        .ok extra) :
    PureForm.mutationKeys (form.counted ++ read.counted ++ extra) =
      PureForm.mutationKeys form.counted := by
  have noRead : PureForm.mutationKeys read.counted = [] := by
    split at reading
    · exact (AttributeRead.of_ofCall reading).2
    · rw [← Except.ok.inj reading]
      rfl
  have noName : PureForm.mutationKeys extra = [] := by
    split at naming
    · rw [← Except.ok.inj naming]
      rfl
    · obtain ⟨_, _, rfl⟩ := Outcome.map_eq_ok.mp naming
      rfl
  rw [PureForm.mutationKeys_append, PureForm.mutationKeys_append, noRead, noName, List.append_nil,
    List.append_nil]

/-- A visit of a call that changes nothing binds nothing but the call. -/
theorem Step.getElem?_of_none (step : Step rules program node before after)
    (unchanged : node.toInstruction.mutatedArgument? rules = none) {id : NodeId}
    (different : id ≠ node.id) : after.env[id]? = before.env[id]? := by
  cases step with
  | copied => exact Env.getElem?_insert_of_ne different _ _
  | folded => exact Env.getElem?_insert_of_ne different _ _
  | called isCall hasInfo formed reading unread naming foundArgs foundKwargs =>
      have nil := (PureForm.suits_of_ofCall formed).changed_eq_nil isCall unchanged
      rw [nil]
      exact Env.getElem?_insert_of_ne different _ _

/-- A call is bound to its node and to the changed nodes exactly if these are one node. -/
theorem Ready.rebinds_iff (ready : Ready visited before) {instruction : Instruction} {tally : Tally}
    {changed : List NodeId} (single : ∃ only : Option NodeId, changed = only.toList)
    (unmarked : instruction.isMarked = false) (bound : before.env.contains target = true)
    (different : target ≠ node.id) :
    Rebinds node target before
        { graph := before.graph.emit instruction none
          env := (before.env.rebindAll changed (.ref before.graph.nextId)).insert node.id
            (.ref before.graph.nextId)
          tally } ↔
      target ∈ changed := by
  have look : ∀ id, id ≠ node.id →
      ((before.env.rebindAll changed (.ref before.graph.nextId)).insert node.id
        (.ref before.graph.nextId) : Env)[id]? =
      if id ∈ changed ∧ before.env.contains id = true then some (.ref before.graph.nextId)
      else before.env[id]? := by
    intro id other
    rw [Env.getElem?_insert_of_ne other, Env.getElem?_rebindAll]
  have nodes := ready.stage.nodes_emit instruction none
  constructor
  · rintro ⟨⟨new, made, -, isBound⟩, -⟩
    obtain rfl := List.singleton_inj.mp (List.append_cancel_left (nodes.symm.trans made))
    by_contra unchanged
    rw [look target different, if_neg fun both => unchanged both.1] at isBound
    exact ready.getElem?_ne target isBound
  · intro isChanged
    refine ⟨⟨_, nodes, unmarked, ?_⟩, fun id notNode notTarget => ?_⟩
    · rw [look target different, if_pos ⟨isChanged, bound⟩]
      rfl
    · rw [look id notNode, if_neg]
      rintro ⟨isOther, -⟩
      obtain ⟨only, rfl⟩ := single
      rw [Option.mem_toList] at isChanged isOther
      exact notTarget (Option.some.inj (isOther.symm.trans isChanged))

/-- A visit accounts for the change of a node exactly if the call does not become a literal and
names the node. -/
theorem Step.accounts_iff (step : Step rules program node before after)
    (ready : Ready visited before) (isLocal : node.toInstruction.isLocalTensor = true)
    (found : node.toInstruction.mutatedArgument? rules = some target)
    (bound : before.env.contains target = true) (different : target ≠ node.id) :
    Rebinds node target before after ∨ Keeps rules program node before after ↔
      node.toInstruction.isRecordedRead rules = false ∧ node.toInstruction.Agrees target := by
  cases step with
  | copied noCall =>
      rw [Instruction.mutatedArgument?, noCall] at found
      cases found
  | folded isCall hasInfo formed isRead reading hasValue =>
      -- The new graph does not grow, and the call is a read.
      rw [Instruction.isLocalTensor_eq hasInfo] at isLocal
      have recorded := isRecordedRead_of_folded isLocal formed isRead reading hasValue
      have same : ∀ new : Node, before.graph.nodes ≠ before.graph.nodes ++ [new] := by
        intro new grown
        have longer := congrArg List.length grown
        simp at longer
      constructor
      · rintro (⟨⟨new, made, -⟩, -⟩ | ⟨⟨new, made, -⟩, -⟩)
        · exact absurd made (same new)
        · exact absurd made (same new)
      · rintro ⟨unread, -⟩
        cases recorded.symm.trans unread
  | @called info form read extra args kwargs isCall hasInfo formed reading unread naming foundArgs
      foundKwargs =>
      rw [Instruction.isLocalTensor_eq hasInfo] at isLocal
      have suits := PureForm.suits_of_ofCall formed
      have marking := suits.isMarked_eq isLocal (traverse_sourceCall info foundArgs foundKwargs)
      rw [and_iff_right (isRecordedRead_of_called isLocal formed reading unread)]
      rcases suits.mem_changed_iff hasInfo isLocal found with ⟨isPure, names⟩ | ⟨impure, nil, names⟩
      · rw [isPure] at marking
        rw [← names, ← ready.rebinds_iff suits.changed_subsingleton marking bound different]
        refine or_iff_left ?_
        rintro ⟨⟨new, made, marked⟩, -⟩
        rw [ready.stage.nodes_emit] at made
        obtain rfl := List.singleton_inj.mp (List.append_cancel_left made)
        cases marking.symm.trans marked
      · rw [impure] at marking
        refine iff_of_true (Or.inr ?_) names
        rcases PureForm.mutationKeys_of_ofCall formed with ⟨-, isPure⟩ | ⟨-, -, name, named, keys⟩
        · cases impure.symm.trans (isPure isLocal)
        · have counted := (mutationKeys_counted reading naming).trans keys
          refine ⟨⟨_, ready.stage.nodes_emit _ _, marking⟩, fun id notNode => ?_,
            ⟨name, named, ?_⟩, ?_⟩
          · rw [nil]
            exact Env.getElem?_insert_of_ne notNode _ _
          · show (before.count _).tally.count .mutation name = _
            rw [count_mutation_count, counted, List.count_singleton_self]
          · show (before.count _).tally.total .mutation = _
            rw [total_mutation_count, counted, List.length_singleton]

end Purifier

/-- The state of a purification before and after the visit of a node. -/
theorem purify_split {rules : Rules} {program : Program} {graph : Graph} {tally : Tally}
    {visited rest : List Node} {node : Node}
    (success : (purify rules program).outcome = .ok (graph, tally))
    (split : program.graph.nodes = visited ++ node :: rest) :
    ∃ before after final, (visited.foldlM (Purifier.visit rules program) {}).outcome = .ok before ∧
      (before.visit rules program node).outcome = .ok after ∧
      (rest.foldlM (Purifier.visit rules program) after).outcome = .ok final ∧
      final.graph = graph ∧ final.tally = tally := by
  simp only [purify, split, List.foldlM_append, List.foldlM_cons, Report.outcome_bind,
    Report.outcome_note, Report.outcome_pure] at success
  obtain ⟨final, completed, same⟩ := Outcome.bind_eq_ok.mp success
  obtain ⟨before, earlier, completed⟩ := Outcome.bind_eq_ok.mp completed
  obtain ⟨after, visit, later⟩ := Outcome.bind_eq_ok.mp completed
  obtain ⟨isGraph, isTally⟩ := Prod.mk.inj (Except.ok.inj same)
  exact ⟨before, after, final, earlier, visit, later, isGraph, isTally⟩

/-- Purification binds no node but the call where a call changes nothing.  Where a tensor call
changes a node, purification binds this node and no other to the pure call, or leaves the call
with its mark and counts one change, exactly if the call does not become a literal and its flag, or
else its receiver, names the node. -/
theorem purification_accounts_for_changes_iff {rules : Rules} {program : Program} {graph : Graph}
    {tally : Tally} (wellFormed : program.graph.WellFormed)
    (valid : program.graph.validate = .ok ())
    (success : (purify rules program).outcome = .ok (graph, tally)) {visited rest : List Node}
    {node : Node} (split : program.graph.nodes = visited ++ node :: rest) :
    ∃ before after final, (visited.foldlM (Purifier.visit rules program) {}).outcome = .ok before ∧
      (before.visit rules program node).outcome = .ok after ∧
      (rest.foldlM (Purifier.visit rules program) after).outcome = .ok final ∧
      final.graph = graph ∧ final.tally = tally ∧
      (node.toInstruction.mutatedArgument? rules = none →
        ∀ id, id ≠ node.id → after.env[id]? = before.env[id]?) ∧
      ∀ target, node.toInstruction.isLocalTensor = true →
        node.toInstruction.mutatedArgument? rules = some target →
          (Purifier.Rebinds node target before after ∨
              Purifier.Keeps rules program node before after ↔
            node.toInstruction.isRecordedRead rules = false ∧
              node.toInstruction.Agrees target) := by
  obtain ⟨before, after, final, earlier, visit, later, isGraph, isTally⟩ :=
    purify_split success split
  have step := Purifier.step_of_eq_ok visit
  have ready : Purifier.Ready visited before :=
    Report.foldlM_induction (motive := Purifier.Ready)
      (fun _ _ _ _ _ _ ready visit => ready.step (Purifier.step_of_eq_ok visit))
      Purifier.ready_start earlier
  refine ⟨before, after, final, earlier, visit, later, isGraph, isTally,
    fun unchanged id different => step.getElem?_of_none unchanged different, ?_⟩
  intro target isLocal found
  have closed := split ▸ (Graph.validate_eq_ok_iff.mp valid).closed
  have absent : node.id ∉ visited.map Node.id := wellFormed.not_mem_before split
  have isInput := Instruction.mem_inputs_of_mutatedArgument? found
  have isVisited : target ∈ visited.map Node.id := Graph.Closed.mem_before closed isInput
  exact step.accounts_iff ready isLocal found (ready.bound target isVisited)
    fun same => absent (same ▸ isVisited)

/-- A call that the tracer saw change its first argument, with a flag that denies it. -/
def deniedChange : Node where
  op := .callFunction ⟨"torch.nn.functional.relu"⟩
  args := [.ref ⟨1⟩]
  kwargs := (∅ : Kwargs NodeId).insert Rules.inplaceKeyword (.literal (.bool false))
  info := some { isMutation := true }
  id := ⟨2⟩
  name := "relu"

/-- The changed value is the result. -/
def deniedChangeProgram : Program where
  graph :=
    { nodes :=
        [{ op := .placeholder, id := ⟨0⟩, name := "input" },
          { op := .callFunction ⟨"torch.exp"⟩, args := [.ref ⟨0⟩], info := some {}, id := ⟨1⟩,
            name := "exp" },
          deniedChange,
          { op := .output, args := [.ref ⟨1⟩], id := ⟨3⟩, name := "output" }]
      created := 4 }

theorem deniedChange_not_accounted :
    deniedChange.toInstruction.mutatedArgument? .standard = some ⟨1⟩ ∧
      ∃ before after,
        ((deniedChangeProgram.graph.nodes.take 2).foldlM
          (Purifier.visit .standard deniedChangeProgram) {}).outcome = .ok before ∧
        (before.visit .standard deniedChangeProgram deniedChange).outcome = .ok after ∧
        ¬(Purifier.Rebinds deniedChange ⟨1⟩ before after ∨
          Purifier.Keeps .standard deniedChangeProgram deniedChange before after) := by
  have found : deniedChange.toInstruction.mutatedArgument? .standard = some ⟨1⟩ := by
    decide +kernel
  obtain ⟨graph, tally, success⟩ : ∃ graph tally,
      (purify .standard deniedChangeProgram).outcome = .ok (graph, tally) := ⟨_, _, rfl⟩
  obtain ⟨before, after, -, earlier, visit, -, -, -, -, accounts⟩ :=
    purification_accounts_for_changes_iff ⟨by decide, by decide⟩ (by decide) success
      (show deniedChangeProgram.graph.nodes = deniedChangeProgram.graph.nodes.take 2 ++ _ :: _
        from rfl)
  refine ⟨found, before, after, earlier, visit, fun accounted => ?_⟩
  obtain ⟨-, agrees⟩ := (accounts ⟨1⟩ rfl found).mp accounted
  have denied := (agrees.flag (.literal (.bool false)) (by decide +kernel)).1
  cases denied

end OpGraph
