import OpGraph.Proofs.Rebinding
import OpGraph.Proofs.StaleReads

/-!
# Names of changed storage

A call that changes a node is a name of the same storage, and so are the calls that changed it
before.  Purification binds the changed node and the call to the pure call, and no other name
(`Purifier.BoundTo`).  So a later reader finds the changed value exactly under these two names, as
long as they are not bound anew.
-/

namespace OpGraph

/-! ### The node that a visit binds anew -/

/-- The node that is bound to the pure form of a call: a flag is looked for first, then a receiver,
then a function that changes its first argument. -/
def Instruction.rebound? (instruction : Instruction) (rules : Rules) : Option NodeId :=
  if instruction.op.isCall && instruction.isLocalTensor && !instruction.isRecordedRead rules then
    match instruction.kwargs[Rules.inplaceKeyword]?, instruction.kwargs[Rules.outKeyword]? with
    | some flag, _ => if flag.truth? = some true then instruction.firstRef? else none
    | none, some receiver => receiver.asRef?
    | none, none => if instruction.isVariant rules then instruction.firstRef? else none
  else none

/-- A form changes the node that is bound anew. -/
theorem PureForm.Suits.changed_eq {rules : Rules} {node : Node} {info : ValueInfo} {op : Op}
    {dropped : Option String} {changed : List NodeId} {isPure : Bool}
    (suits : Suits rules node info op dropped changed isPure) (isCall : node.op.isCall = true)
    (hasInfo : node.info = some info)
    (unread : (info.isTensor && !info.isInputMutation) = true →
      node.toInstruction.isRecordedRead rules = false) :
    changed = (node.toInstruction.rebound? rules).toList := by
  have isLocal := Instruction.isLocalTensor_eq hasInfo
  have condition : (info.isTensor && !info.isInputMutation) = true →
      (node.op.isCall && node.toInstruction.isLocalTensor &&
        !node.toInstruction.isRecordedRead rules) = true := by
    intro inside
    rw [isCall, isLocal, inside, unread inside]
    rfl
  rw [Instruction.rebound?]
  cases suits with
  | flagged isTensor inside found =>
      rw [if_pos (condition (by simp [isTensor, inside])), found]
      dsimp only
      split
      · rfl
      · rfl
  | received isTensor inside noFlag found =>
      rw [if_pos (condition (by simp [isTensor, inside])), noFlag, found]
  | variant isTensor inside noFlag noReceiver found =>
      rw [if_pos (condition (by simp [isTensor, inside])), noFlag, noReceiver,
        Instruction.isVariant_eq, found]
      rfl
  | operator isTensor inside noFlag noReceiver noVariant
  | remaining isTensor inside noFlag noReceiver noVariant =>
      rw [if_pos (condition (by simp [isTensor, inside])), noFlag, noReceiver,
        Instruction.isVariant_eq, noVariant]
      rfl
  | other outside =>
      rw [isLocal, outside]
      simp

/-- A form that changes a node is that of a tensor call, and pure. -/
theorem PureForm.Suits.of_mem_changed {rules : Rules} {node : Node} {info : ValueInfo} {op : Op}
    {dropped : Option String} {changed : List NodeId} {isPure : Bool}
    (suits : Suits rules node info op dropped changed isPure) {target : NodeId}
    (isChanged : target ∈ changed) :
    (info.isTensor && !info.isInputMutation) = true ∧ isPure = true := by
  cases suits with
  | flagged isTensor inside | received isTensor inside | variant isTensor inside =>
      exact ⟨by simp [isTensor, inside], rfl⟩
  | operator | remaining | other => cases isChanged

namespace Purifier

variable {rules : Rules} {program : Program} {node : Node} {before after : Purifier}

/-- A call that becomes a literal binds no other node. -/
theorem rebound?_of_folded {info : ValueInfo} {form : PureForm} {read : AttributeRead} {value : Arg}
    (hasInfo : node.info = some info)
    (formed : (PureForm.ofCall rules program.submodules node info).outcome = .ok form)
    (isRead : form.op = .callFunction .getAttribute)
    (reading : (AttributeRead.ofCall program.graph node).outcome = .ok read)
    (found : read.value = some value) : node.toInstruction.rebound? rules = none := by
  rw [Instruction.rebound?, Instruction.isLocalTensor_eq hasInfo]
  cases isLocal : info.isTensor && !info.isInputMutation with
  | false => simp
  | true => simp [isRecordedRead_of_folded isLocal formed isRead reading found]

/-- A visit binds its node and the node that is bound anew, and leaves all other bindings. -/
theorem Step.getElem?_env (step : Step rules program node before after) {id : NodeId}
    (different : id ≠ node.id) :
    after.env[id]? =
      if node.toInstruction.rebound? rules = some id ∧ before.env.contains id = true then
        some (.ref before.graph.nextId)
      else before.env[id]? := by
  cases step with
  | copied noCall =>
      have none : node.toInstruction.rebound? rules = none := by
        rw [Instruction.rebound?, noCall]
        rfl
      rw [none, if_neg fun both => by cases both.1]
      exact Env.getElem?_insert_of_ne different _ _
  | folded isCall hasInfo formed isRead reading found =>
      have none := rebound?_of_folded hasInfo formed isRead reading found
      rw [none, if_neg fun both => by cases both.1]
      exact Env.getElem?_insert_of_ne different _ _
  | called isCall hasInfo formed reading unread =>
      have changed := (PureForm.suits_of_ofCall formed).changed_eq isCall hasInfo fun isLocal =>
        isRecordedRead_of_called isLocal formed reading unread
      show ((before.env.rebindAll _ _).insert node.id _ : Env)[id]? = _
      rw [Env.getElem?_insert_of_ne different, Env.getElem?_rebindAll, changed]
      simp only [Option.mem_toList]

theorem ref_nextId_ne {graph : Graph} {made : NodeId} (earlier : made.index < graph.created) :
    (some (.ref graph.nextId) : Option Arg) ≠ some (.ref made) := by
  intro same
  obtain rfl := Argument.ref.inj (Option.some.inj same)
  exact Nat.lt_irrefl _ earlier

/-- A visit does not bind its node to an earlier one. -/
theorem Step.getElem?_env_self (step : Step rules program node before after) {made : NodeId}
    (earlier : made.index < before.graph.created) : after.env[node.id]? ≠ some (.ref made) := by
  have fresh := ref_nextId_ne earlier
  cases step with
  | copied noCall found =>
      show (before.env.insert node.id _ : Env)[node.id]? ≠ _
      rw [Std.ExtTreeMap.getElem?_insert_self]
      exact fresh
  | folded isCall hasInfo formed isRead reading found =>
      obtain ⟨text, rfl⟩ := value_of_ofCall reading found
      show (before.env.insert node.id _ : Env)[node.id]? ≠ _
      rw [Std.ExtTreeMap.getElem?_insert_self]
      simp
  | called =>
      show (Std.ExtTreeMap.insert _ node.id _ : Env)[node.id]? ≠ _
      rw [Std.ExtTreeMap.getElem?_insert_self]
      exact fresh

theorem Step.created_le (step : Step rules program node before after) :
    before.graph.created ≤ after.graph.created := by
  cases step with
  | copied | called => exact Nat.le_succ _
  | folded => exact Nat.le_refl _

theorem Ready.run {visited nodes : List Node} (ready : Ready visited before)
    (run : (nodes.foldlM (Purifier.visit rules program) before).outcome = .ok after) :
    Ready (visited ++ nodes) after := by
  refine Report.foldlM_induction (motive := fun passed => Ready (visited ++ passed))
    (fun passed node _ _ _ _ ready visit => ?_) ?_ run
  · rw [← List.append_assoc]
    exact ready.step (step_of_eq_ok visit)
  · rw [List.append_nil]
    exact ready

/-! ### Names of a new node -/

/-- The nodes bound to a node of the new graph are those with a property. -/
structure BoundTo (made : NodeId) (isName : NodeId → Prop) (purifier : Purifier) : Prop where
  earlier : made.index < purifier.graph.created
  names : ∀ id, purifier.env[id]? = some (.ref made) ↔ isName id

theorem BoundTo.step {made : NodeId} {isName : NodeId → Prop} (bound : BoundTo made isName before)
    (step : Step rules program node before after) (noName : ¬ isName node.id) :
    BoundTo made (fun id => isName id ∧ node.toInstruction.rebound? rules ≠ some id) after := by
  refine ⟨Nat.lt_of_lt_of_le bound.earlier step.created_le, fun id => ?_⟩
  by_cases same : id = node.id
  · rw [same]
    exact iff_of_false (step.getElem?_env_self bound.earlier) fun both => noName both.1
  · rw [step.getElem?_env same]
    by_cases rebound : node.toInstruction.rebound? rules = some id
    · refine iff_of_false ?_ fun both => both.2 rebound
      split
      · exact ref_nextId_ne bound.earlier
      · next unbound =>
        intro found
        refine unbound ⟨rebound, ?_⟩
        rw [Std.ExtTreeMap.contains_eq_isSome_getElem?, found]
        rfl
    · rw [if_neg fun both => rebound both.1, bound.names id]
      exact (and_iff_left rebound).symm

theorem BoundTo.run {made : NodeId} {isName : NodeId → Prop} (bound : BoundTo made isName before)
    {nodes : List Node}
    (run : (nodes.foldlM (Purifier.visit rules program) before).outcome = .ok after)
    (noName : ∀ node ∈ nodes, ¬ isName node.id) :
    BoundTo made
      (fun id => isName id ∧ ∀ other ∈ nodes, other.toInstruction.rebound? rules ≠ some id)
      after := by
  induction nodes generalizing before isName with
  | nil =>
      obtain rfl := Except.ok.inj run
      exact ⟨bound.earlier, fun id => (bound.names id).trans (by simp)⟩
  | cons first rest ih =>
      rw [List.foldlM_cons, Report.outcome_bind] at run
      obtain ⟨next, visit, run⟩ := Outcome.bind_eq_ok.mp run
      have further := ih (bound.step (step_of_eq_ok visit) (noName first List.mem_cons_self)) run
        fun node member both => noName node (List.mem_cons_of_mem _ member) both.1
      refine ⟨further.earlier, fun id => (further.names id).trans ?_⟩
      rw [and_assoc, List.forall_mem_cons]

/-- A call is made pure wherever its form binds a visited node anew. -/
theorem Step.rebinds_of_rebound? {visited : List Node} {target : NodeId}
    (step : Step rules program node before after) (ready : Ready visited before)
    (rebound : node.toInstruction.rebound? rules = some target)
    (bound : before.env.contains target = true) (different : target ≠ node.id) :
    Rebinds node target before after := by
  cases step with
  | copied noCall =>
      rw [Instruction.rebound?, noCall] at rebound
      cases rebound
  | folded isCall hasInfo formed isRead reading found =>
      rw [rebound?_of_folded hasInfo formed isRead reading found] at rebound
      cases rebound
  | @called info form _ _ _ _ isCall hasInfo formed reading unread naming foundArgs foundKwargs =>
      have suits := PureForm.suits_of_ofCall formed
      have changed := suits.changed_eq isCall hasInfo fun isLocal =>
        isRecordedRead_of_called isLocal formed reading unread
      have isChanged : target ∈ form.changed := by
        rw [changed, rebound]
        exact List.mem_singleton_self _
      obtain ⟨isLocal, isPure⟩ := suits.of_mem_changed isChanged
      have marking := suits.isMarked_eq isLocal (traverse_sourceCall info foundArgs foundKwargs)
      rw [isPure] at marking
      exact (ready.rebinds_iff suits.changed_subsingleton marking bound different).mpr isChanged

/-- After a change, the changed node and the call are the names of the pure call. -/
theorem Rebinds.boundTo {visited : List Node} {target : NodeId}
    (rebinds : Rebinds node target before after) (ready : Ready visited before)
    (step : Step rules program node before after) (isCall : node.op.isCall = true) :
    ∃ made, after.graph.nodes = before.graph.nodes ++ [made] ∧
      BoundTo made.id (fun id => id = target ∨ id = node.id) after := by
  obtain ⟨⟨made, nodes, -, bound⟩, others⟩ := rebinds
  refine ⟨made, nodes, ?_⟩
  cases step with
  | copied noCall => cases noCall.symm.trans isCall
  | folded =>
      have longer := congrArg List.length nodes
      simp [Purifier.bind, Purifier.count] at longer
  | called =>
      rw [ready.stage.nodes_emit] at nodes
      obtain rfl := List.singleton_inj.mp (List.append_cancel_left nodes)
      refine ⟨Nat.lt_succ_self _, fun id => ?_⟩
      by_cases isNode : id = node.id
      · refine iff_of_true ?_ (Or.inr isNode)
        rw [isNode]
        exact Std.ExtTreeMap.getElem?_insert_self
      · by_cases isTarget : id = target
        · exact iff_of_true (isTarget ▸ bound) (Or.inl isTarget)
        · refine iff_of_false ?_ fun either => either.elim isTarget isNode
          rw [others id isNode isTarget]
          exact ready.getElem?_ne id

end Purifier

/-! ### Readers of a changed storage -/

/-- The names under which a node reads the storage of a value. -/
def Node.namesOf (node : Node) (storage : Storage) (target : NodeId) : List NodeId :=
  node.inputs.filter fun name => storage.together name target

/-- A new node reads `image id` wherever an old one read `id`; it may do without a keyword
argument. -/
structure Node.ReadsAs (old new : Node) (image : NodeId → Arg) : Prop where
  args : new.args = Argument.bindAll image old.args
  kwargs : ∃ kept : Kwargs NodeId,
    (kept = old.kwargs ∨ ∃ keyword, kept = old.kwargs.erase keyword) ∧ new.kwargs = kept.bind image

namespace Purifier

variable {rules : Rules} {program : Program} {node : Node} {before after : Purifier}

/-- A visited node becomes a literal, or it is made with the current values of what it reads. -/
theorem Step.readsAs {visited : List Node} (step : Step rules program node before after)
    (ready : Ready visited before) :
    (node.op.isCall = true ∧ after.graph = before.graph ∧
        ∃ text, after.env[node.id]? = some (.literal (.text text))) ∨
      ∃ new, after.graph.nodes = before.graph.nodes ++ [new] ∧
        node.ReadsAs new (Argument.total before.env.value) := by
  cases step with
  | copied noCall found =>
      refine Or.inr ⟨_, ready.stage.nodes_emit _ _, ?_⟩
      obtain ⟨-, rfl⟩ := Instruction.traverse_eq_ok_iff.mp found
      exact ⟨rfl, node.kwargs, Or.inl rfl, rfl⟩
  | folded isCall hasInfo formed isRead reading found =>
      obtain ⟨text, rfl⟩ := value_of_ofCall reading found
      exact Or.inl ⟨isCall, rfl, text, Std.ExtTreeMap.getElem?_insert_self⟩
  | @called _ form _ _ _ _ isCall hasInfo formed reading unread naming foundArgs foundKwargs =>
      refine Or.inr ⟨_, ready.stage.nodes_emit _ _, ?_⟩
      obtain ⟨-, rfl⟩ := Argument.traverseAll_eq_ok_iff.mp foundArgs
      obtain ⟨-, rfl⟩ := Kwargs.traverse_eq_ok_iff.mp foundKwargs
      refine ⟨rfl, form.keptKwargs node.kwargs, ?_, rfl⟩
      rw [PureForm.keptKwargs]
      cases form.dropped with
      | none => exact Or.inl rfl
      | some keyword => exact Or.inr ⟨keyword, rfl⟩

theorem total_value_eq_ref {env : Env} {id made : NodeId} :
    Argument.total env.value id = .ref made ↔ env[id]? = some (.ref made) := by
  rw [Argument.total, Env.value]
  cases env[id]? with
  | none => simp
  | some value => simp

end Purifier

namespace Storage

variable {rules : Rules} {submodules : Forest} {storage : Storage} {nodes : List Node}

/-- A node that is not placed into a storage shares it only as its owner. -/
theorem Describes.owner_of_apart (describes : Describes rules submodules storage nodes)
    {before after : List Node} {node : Node} {target : NodeId}
    (split : nodes = before ++ node :: after)
    (apart : ∀ shared, (node.placement rules submodules).target? = some shared →
      storage.together shared target = false)
    (same : storage.together node.id target = true) : storage.owner[target]? = some node.id := by
  obtain ⟨owner, isOwner, isOther⟩ := together_eq_true same
  cases placed : (node.placement rules submodules).target? with
  | none =>
      rw [describes.fresh before node after split placed] at isOwner
      rw [isOther, isOwner]
  | some shared =>
      rw [describes.shared before node after shared split placed] at isOwner
      have together : storage.together shared target = true := by
        rw [Storage.together, isOwner, isOther]
        exact decide_eq_true rfl
      cases (apart shared placed).symm.trans together

end Storage

/-- A node reads the storage of a value under two names at most, if no other node before it is
placed into this storage. -/
theorem Storage.Describes.eq_of_mem_namesOf {rules : Rules} {submodules : Forest}
    {storage : Storage} {nodes visited between rest : List Node} {change reader : Node}
    {target name : NodeId} (describes : Describes rules submodules storage nodes)
    (closed : Graph.Closed ∅ nodes)
    (split : nodes = visited ++ change :: (between ++ reader :: rest))
    (isTarget : target ∈ visited.map Node.id)
    (apart : ∀ other ∈ visited ++ between, ∀ shared,
      (other.placement rules submodules).target? = some shared →
        storage.together shared target = false)
    (isName : name ∈ reader.namesOf storage target) : name = target ∨ name = change.id := by
  obtain ⟨isInput, same⟩ := List.mem_filter.mp isName
  -- The owner of the storage is the only node before the reader that need not be placed into it.
  have owns : ∀ other ∈ visited ++ between, storage.together other.id target = true →
      storage.owner[target]? = some other.id := by
    intro other member together
    have isNode : other ∈ nodes := by
      rw [split]
      rcases List.mem_append.mp member with earlier | later
      · exact List.mem_append_left _ earlier
      · exact List.mem_append_right _ (List.mem_cons_of_mem _ (List.mem_append_left _ later))
    obtain ⟨first, last, around⟩ := List.append_of_mem isNode
    exact describes.owner_of_apart around (apart other member) together
  have owned : storage.owner[target]? = some target := by
    obtain ⟨node, member, rfl⟩ := List.mem_map.mp isTarget
    obtain ⟨owner, -, isOther⟩ := together_eq_true same
    refine owns node (List.mem_append_left _ member) ?_
    rw [together, isOther]
    exact decide_eq_true rfl
  have around : nodes = (visited ++ change :: between) ++ reader :: rest := by
    rw [split, List.append_assoc, List.cons_append]
  rw [around] at closed
  obtain ⟨other, member, rfl⟩ := List.mem_map.mp (closed.mem_before isInput)
  have elsewhere : other ∈ visited ++ between → other.id = target ∨ other.id = change.id :=
    fun member => Or.inl (Option.some.inj ((owns other member same).symm.trans owned))
  rcases List.mem_append.mp member with earlier | member
  · exact elsewhere (List.mem_append_left _ earlier)
  · rcases List.mem_cons.mp member with rfl | later
    · exact Or.inr rfl
    · exact elsewhere (List.mem_append_right _ later)

/-- A reader behind a call that changes a node and is made pure finds the new value under all names
by which it reads the storage if and only if these are the changed node and the call, and they have
not been bound anew in between.  So it does if no other node before it is placed into the storage
and no name of the storage is bound anew. -/
theorem names_read_change_iff {rules : Rules} {program : Program} {graph : Graph} {tally : Tally}
    {storage : Storage} (wellFormed : program.graph.WellFormed)
    (valid : program.graph.validate = .ok ())
    (success : (purify rules program).outcome = .ok (graph, tally))
    (placed : Storage.ofProgram rules program = .ok storage)
    {visited between rest : List Node} {change reader : Node} {target : NodeId}
    (split : program.graph.nodes = visited ++ change :: (between ++ reader :: rest))
    (changes : change.toInstruction.mutatedArgument? rules = some target) :
    ∃ before after reading read final,
      (visited.foldlM (Purifier.visit rules program) {}).outcome = .ok before ∧
      (before.visit rules program change).outcome = .ok after ∧
      (between.foldlM (Purifier.visit rules program) after).outcome = .ok reading ∧
      (reading.visit rules program reader).outcome = .ok read ∧
      (rest.foldlM (Purifier.visit rules program) read).outcome = .ok final ∧
      final.graph = graph ∧
      (Purifier.Rebinds change target before after →
        ∃ made, after.graph.nodes = before.graph.nodes ++ [made] ∧
          ((reader.op.isCall = true ∧ read.graph = reading.graph ∧
              ∃ text, read.env[reader.id]? = some (.literal (.text text))) ∨
            ∃ new image, read.graph.nodes = reading.graph.nodes ++ [new] ∧
              reader.ReadsAs new image ∧
              ((∀ name ∈ reader.namesOf storage target, image name = .ref made.id) ↔
                ∀ name ∈ reader.namesOf storage target, (name = target ∨ name = change.id) ∧
                  ∀ other ∈ between, other.toInstruction.rebound? rules ≠ some name) ∧
              ((∀ other ∈ visited ++ between, ∀ shared,
                  (other.placement rules program.submodules).target? = some shared →
                    storage.together shared target = false) →
                (∀ other ∈ between, ∀ shared, other.toInstruction.rebound? rules = some shared →
                  storage.together shared target = false) →
                ∀ name ∈ reader.namesOf storage target, image name = .ref made.id))) := by
  obtain ⟨before, after, final, earlier, visit, later, isGraph, -⟩ := purify_split success split
  rw [List.foldlM_append, Report.outcome_bind] at later
  obtain ⟨reading, passed, later⟩ := Outcome.bind_eq_ok.mp later
  rw [List.foldlM_cons, Report.outcome_bind] at later
  obtain ⟨read, visitReader, later⟩ := Outcome.bind_eq_ok.mp later
  refine ⟨before, after, reading, read, final, earlier, visit, passed, visitReader, later, isGraph,
    fun rebinds => ?_⟩
  have isCall : change.op.isCall = true := by
    by_contra noCall
    rw [Instruction.mutatedArgument?, if_neg noCall] at changes
    cases changes
  have validNodes := Graph.validate_eq_ok_iff.mp valid
  have isTarget : target ∈ visited.map Node.id :=
    (split ▸ validNodes.closed).mem_before (Instruction.mem_inputs_of_mutatedArgument? changes)
  have ready : Purifier.Ready visited before := Purifier.ready_start.run earlier
  have step := Purifier.step_of_eq_ok visit
  obtain ⟨made, nodes, bound⟩ := rebinds.boundTo ready step isCall
  have unnamed : ∀ node ∈ between, ¬ (node.id = target ∨ node.id = change.id) := by
    intro node member
    obtain ⟨first, last, rfl⟩ := List.append_of_mem member
    have around : program.graph.nodes =
        (visited ++ change :: first) ++ node :: (last ++ reader :: rest) := by
      rw [split, List.append_assoc, List.append_assoc, List.cons_append, List.cons_append]
    have absent := wellFormed.not_mem_before around
    rw [List.map_append] at absent
    rintro (isTargetId | isChange)
    · exact absent (List.mem_append_left _ (isTargetId ▸ isTarget))
    · exact absent (List.mem_append_right _ (isChange ▸ List.mem_cons_self))
  have found := (bound.run passed unnamed).names
  refine ⟨made, nodes, ?_⟩
  have readyReader := (ready.step step).run passed
  rcases (Purifier.step_of_eq_ok visitReader).readsAs readyReader with
    literal | ⟨new, grown, reads⟩
  · exact Or.inl literal
  · refine Or.inr ⟨new, _, grown, reads, ?_, fun apart unbound name isName => ?_⟩
    · simp only [Purifier.total_value_eq_ref, found]
    · have described := Storage.describes placed wellFormed.distinct validNodes.closed
      have either := described.eq_of_mem_namesOf validNodes.closed split isTarget apart isName
      rw [Purifier.total_value_eq_ref, found]
      refine ⟨either, fun other member rebound => ?_⟩
      obtain ⟨-, same⟩ := List.mem_filter.mp isName
      cases (unbound other member name rebound).symm.trans same

/-- The change of a value by way of the call that changed it before. -/
def secondChange : Node where
  op := .callFunction ⟨"_operator.iadd"⟩
  args := [.ref ⟨3⟩, .ref ⟨1⟩]
  info := some { isMutation := true }
  id := ⟨4⟩
  name := "iadd"

/-- A reader of the first name of the changed value. -/
def firstNameReader : Node where
  op := .output
  args := [.ref ⟨2⟩]
  id := ⟨5⟩
  name := "output"

/-- A value is changed twice and read under its first name. -/
def changedTwice : Program where
  graph :=
    { nodes :=
        [{ op := .placeholder, id := ⟨0⟩, name := "x" },
          { op := .placeholder, id := ⟨1⟩, name := "y" },
          { op := .callFunction ⟨"torch.exp"⟩, args := [.ref ⟨0⟩], info := some {}, id := ⟨2⟩,
            name := "exp" },
          { op := .callFunction ⟨"torch.relu_"⟩, args := [.ref ⟨2⟩],
            info := some { isMutation := true }, id := ⟨3⟩, name := "relu_" },
          secondChange, firstNameReader]
      created := 6 }

theorem changedTwice_reads_stale :
    ∃ graph tally storage before after made new image,
      (purify .standard changedTwice).outcome = .ok (graph, tally) ∧
      Storage.ofProgram .standard changedTwice = .ok storage ∧
      firstNameReader.namesOf storage ⟨3⟩ = [⟨2⟩] ∧
      ((changedTwice.graph.nodes.take 4).foldlM
        (Purifier.visit .standard changedTwice) {}).outcome = .ok before ∧
      (before.visit .standard changedTwice secondChange).outcome = .ok after ∧
      Purifier.Rebinds secondChange ⟨3⟩ before after ∧
      after.graph.nodes = before.graph.nodes ++ [made] ∧
      graph.nodes = after.graph.nodes ++ [new] ∧
      firstNameReader.ReadsAs new image ∧ image ⟨2⟩ ≠ .ref made.id := by
  obtain ⟨graph, tally, success⟩ : ∃ graph tally,
      (purify .standard changedTwice).outcome = .ok (graph, tally) := ⟨_, _, rfl⟩
  have reads : (firstNameReader.namesOf · ⟨3⟩) <$> Storage.ofProgram .standard changedTwice =
      .ok [⟨2⟩] := by
    decide +kernel
  obtain ⟨storage, placed, names⟩ := Outcome.map_eq_ok.mp reads
  have changes : secondChange.toInstruction.mutatedArgument? .standard = some ⟨3⟩ := by
    decide +kernel
  have rebound : secondChange.toInstruction.rebound? .standard = some ⟨3⟩ := by decide +kernel
  have split : changedTwice.graph.nodes =
      changedTwice.graph.nodes.take 4 ++ secondChange :: ([] ++ firstNameReader :: []) := rfl
  obtain ⟨before, after, reading, read, final, earlier, visit, passed, -, later, isGraph, finds⟩ :=
    names_read_change_iff ⟨by decide, by decide⟩ (by decide) success placed split changes
  have ready := Purifier.ready_start.run earlier
  have rebinds := (Purifier.step_of_eq_ok visit).rebinds_of_rebound? ready rebound
    (ready.bound ⟨3⟩ (by decide)) (by decide)
  -- Nothing stands between the change and the reader, or behind the reader.
  obtain rfl : after = reading := Except.ok.inj passed
  obtain rfl : read = final := Except.ok.inj later
  obtain ⟨made, nodes, ⟨isCall, -⟩ | ⟨new, image, emitted, reads, found, -⟩⟩ := finds rebinds
  · cases isCall
  · refine ⟨graph, tally, storage, before, after, made, new, image, success, placed, names, earlier,
      visit, rebinds, nodes, isGraph ▸ emitted, reads, fun finds => ?_⟩
    rw [names, List.forall_mem_singleton, List.forall_mem_singleton] at found
    exact absurd (found.mp finds).1 (by decide)

end OpGraph
