import OpGraph.Proofs.RenumberedReuse
import OpGraph.Proofs.ReuseDecisions

/-!
# Storage reuse, done again

When storage is reused in a graph in which that has been done before, more values share storage
than in the source, so less of it has expired (`ReusePair.expired`).  A call that could not reuse
storage before cannot do so now, and a changed call is told what it has been told already.

This needs that nodes still read what they read before.  A changed call loses the flag that it had,
so it must have read nothing through that flag alone (`Instruction.ReadsApartFromFlag`).
-/

namespace OpGraph

/-! ### Arguments under new names -/

section Arguments

variable {rename : NodeId → NodeId}

theorem Argument.bind_eq_ref {argument : Arg} {target : NodeId}
    (renamed : (argument.bind fun id => .ref (rename id)) = .ref target) :
    ∃ id, argument = .ref id ∧ rename id = target := by
  cases argument with
  | ref id => exact ⟨id, rfl, Argument.ref.inj renamed⟩
  | literal value => cases renamed
  | tuple items => cases renamed

theorem Argument.exists_of_bindAll {image : NodeId → Arg} {args : List Arg} {first second : Arg}
    (renamed : bindAll image args = [first, second]) :
    ∃ left right, args = [left, right] ∧ left.bind image = first ∧ right.bind image = second := by
  rw [bindAll_eq_map] at renamed
  rcases args with _ | ⟨left, _ | ⟨right, _ | ⟨another, rest⟩⟩⟩
  · cases renamed
  · cases renamed
  · cases renamed
    exact ⟨left, right, rfl, rfl, rfl⟩
  · cases renamed

theorem Instruction.arguments_bind (image : NodeId → Arg) (instruction : Instruction) :
    (instruction.bind image).arguments = instruction.arguments.map (Argument.bind image) := by
  have kwargs : (instruction.bind image).kwargs.erase Rules.inplaceKeyword =
      Kwargs.bind image (instruction.kwargs.erase Rules.inplaceKeyword) :=
    (Kwargs.bind_erase ..).symm
  rw [arguments, arguments, kwargs, Kwargs.values_bind, List.map_append]
  exact congrArg (· ++ _) (Argument.bindAll_eq_map ..)

theorem Instruction.only_of_bind {instruction : Instruction} {target : NodeId}
    (only : (instruction.bind fun id => .ref (rename id)).arguments = [.ref target]) :
    ∃ id, instruction.arguments = [.ref id] ∧ rename id = target := by
  rw [arguments_bind] at only
  obtain ⟨argument, single, renamed⟩ := List.map_eq_singleton_iff.mp only
  obtain ⟨id, rfl, same⟩ := Argument.bind_eq_ref renamed
  exact ⟨id, single, same⟩

end Arguments

/-- Whatever a call reads, it reads through an argument other than its flag. -/
def Instruction.ReadsApartFromFlag (instruction : Instruction) : Prop :=
  ∀ id ∈ instruction.inputs, ∃ argument ∈ instruction.arguments, id ∈ argument.refs

instance (instruction : Instruction) : Decidable instruction.ReadsApartFromFlag :=
  inferInstanceAs (Decidable (∀ id ∈ instruction.inputs, ∃ argument ∈ instruction.arguments,
    id ∈ argument.refs))

/-- A changed call still reads what it read apart from its flag. -/
theorem ReusePlan.Grants.mem_inputs_apply {rules : Rules} {instruction : Instruction}
    {plan : ReusePlan} {operand : NodeId} (grants : plan.Grants rules instruction operand)
    (reads : instruction.ReadsApartFromFlag) {id : NodeId} (isInput : id ∈ instruction.inputs) :
    id ∈ (plan.apply instruction).inputs := by
  obtain ⟨argument, isArgument, isRef⟩ := reads id isInput
  refine Instruction.mem_inputs.mpr ?_
  rcases List.mem_append.mp isArgument with positional | isValue
  · exact Or.inl (Argument.mem_refsAll.mpr ⟨argument, positional, isRef⟩)
  · rw [Kwargs.values_eq_map_snd] at isValue
    obtain ⟨⟨keyword, _⟩, isEntry, rfl⟩ := List.mem_map.mp isValue
    have found := Std.ExtTreeMap.mem_toList_iff_getElem?_eq_some.mp isEntry
    have kept := grants.adds.getElem?_of_erase grants.leads.only.2.2 found
    exact Or.inr (Kwargs.mem_refs.mpr ⟨keyword, _, kept, isRef⟩)

/-! ### Calls that are told again -/

theorem Kwargs.insert_eq_self {kwargs : Kwargs NodeId} {keyword : String} {argument : Arg}
    (found : kwargs[keyword]? = some argument) : kwargs.insert keyword argument = kwargs := by
  apply Std.ExtTreeMap.ext_getElem?
  intro other
  rw [Std.ExtTreeMap.getElem?_insert]
  split
  · next equal => rw [← Std.LawfulEqOrd.eq_of_compare equal, found]
  · rfl

namespace Node.Reuses

variable {rules : Rules} {accepts : Signatures} {graph again : Graph} {storage reused : Storage}
variable {later laterAgain : List Node} {node new : Node} {kwargs told : Kwargs NodeId}
variable {rename : NodeId → NodeId}

theorem length_args_le_one {instruction : Instruction} {argument : Arg}
    (only : instruction.arguments = [argument]) : instruction.args.length ≤ 1 := by
  have length := congrArg List.length only
  rw [Instruction.arguments, List.length_append, List.length_singleton] at length
  omega

/-- A receiver is found under its new name. -/
theorem getElem?_out_bind (kwargs : Kwargs NodeId) (operand : NodeId) :
    (Kwargs.bind (fun id => .ref (rename id))
      (kwargs.insert Rules.outKeyword (.ref operand)))[Rules.outKeyword]? =
        some (.ref (rename operand)) := by
  rw [Kwargs.getElem?_bind, Std.ExtTreeMap.getElem?_insert_self]
  rfl

/-- A call whose only argument is its receiver needs no other receiver. -/
theorem insert_out_eq_self {instruction : Instruction} {operand receiver : NodeId}
    (only : instruction.arguments = [.ref operand])
    (noFlag : instruction.kwargs[Rules.inplaceKeyword]? = none)
    (found : instruction.kwargs[Rules.outKeyword]? = some (.ref receiver)) :
    (instruction.kwargs.erase Rules.inplaceKeyword).insert Rules.outKeyword (.ref operand) =
      instruction.kwargs := by
  have isArgument : .ref receiver ∈ instruction.arguments := by
    refine List.mem_append_right _ ?_
    rw [Kwargs.erase_eq_self noFlag, Kwargs.values_eq_map_snd]
    exact List.mem_map.mpr ⟨_, Std.ExtTreeMap.mem_toList_iff_getElem?_eq_some.mpr found, rfl⟩
  rw [only, List.mem_singleton] at isArgument
  rw [Kwargs.erase_eq_self noFlag, ← isArgument]
  exact Kwargs.insert_eq_self found

/-- A changed call that can reuse storage again is told what it has been told. -/
theorem told_again (reuses : node.Reuses rules accepts graph storage later kwargs)
    (repeated : new.Reuses rules accepts again reused laterAgain told) (op : new.op = node.op)
    (args : new.args = Argument.bindAll (fun id => .ref (rename id)) node.args)
    (changed : new.kwargs = kwargs.bind fun id => .ref (rename id)) : told = new.kwargs := by
  have length : new.args.length = node.args.length := by
    rw [args, Argument.bindAll_eq_map, List.length_map]
  have sameFunction : ∀ {function other}, node.op = .callFunction function →
      new.op = .callFunction other → function = other := by
    intro function other isFunction isOther
    rw [op, isFunction] at isOther
    exact Op.callFunction.inj isOther
  cases reuses with
  | flag isFunction _ only _ flagged =>
      have single := length_args_le_one only
      cases repeated with
      | flag =>
          refine Kwargs.insert_eq_self ?_
          rw [changed, Kwargs.getElem?_bind, Std.ExtTreeMap.getElem?_insert_self]
          rfl
      | receiver isOther _ _ _ unflagged =>
          rw [← sameFunction isFunction isOther, flagged] at unflagged
          cases unflagged
      | elementwise _ _ two =>
          rw [← length, two, List.length_cons, List.length_singleton] at single
          omega
  | receiver isFunction _ only _ unflagged =>
      have single := length_args_le_one only
      cases repeated with
      | flag isOther _ _ _ flagged =>
          rw [← sameFunction isFunction isOther, unflagged] at flagged
          cases flagged
      | receiver _ _ onlyAgain =>
          refine insert_out_eq_self onlyAgain ?_ (changed ▸ getElem?_out_bind _ _)
          rw [changed, Kwargs.getElem?_bind, Std.ExtTreeMap.getElem?_insert, if_neg,
            Std.ExtTreeMap.getElem?_erase_self]
          · rfl
          · exact fun equal => ReusePlan.inplace_ne_out (Std.LawfulEqOrd.eq_of_compare equal).symm
      | elementwise _ _ two =>
          rw [← length, two, List.length_cons, List.length_singleton] at single
          omega
  | elementwise _ _ two =>
      rw [two, List.length_cons, List.length_singleton] at length
      cases repeated with
      | flag _ _ only =>
          have single := length_args_le_one only
          omega
      | receiver _ _ only =>
          have single := length_args_le_one only
          omega
      | elementwise _ _ _ positional =>
          have found := changed ▸ getElem?_out_bind _ _
          rw [← ReusePlan.getElem?_erase_of_ne ReusePlan.inplace_ne_out, positional,
            Std.ExtTreeMap.getElem?_empty] at found
          cases found

end Node.Reuses

/-! ### A graph and its result -/

/-- A valid graph and the graph in which its storage has been reused, with the storage of the values
of both. -/
structure ReusePair (rules : Rules) (accepts : Signatures) (submodules : Forest)
    (source result : Graph) where
  storage : Storage
  reused : Storage
  rename : NodeId → NodeId
  wellFormed : source.WellFormed
  valid : Graph.Valid source.nodes
  wellFormedResult : result.WellFormed
  validResult : Graph.Valid result.nodes
  analysed : source.nodes.foldlM (Storage.place rules submodules) {} = .ok storage
  analysedResult : result.nodes.foldlM (Storage.place rules submodules) {} = .ok reused
  turned : Graph.Turned rules accepts source storage rename source.nodes result.nodes

theorem nonempty_reusePair {rules : Rules} {accepts : Signatures} {program : Program}
    {graph : Graph} {calls : List ReusedCall} (wellFormed : program.graph.WellFormed)
    (valid : Graph.Valid program.graph.nodes)
    (success : reuseStorage rules accepts program = .ok (graph, calls)) :
    Nonempty (ReusePair rules accepts program.submodules program.graph graph) := by
  obtain ⟨storage, rename, analysed, turned⟩ := exists_turned wellFormed valid success
  obtain ⟨wellFormedResult, validResult⟩ := valid_reuseStorage wellFormed valid success
  obtain ⟨reused, analysedResult⟩ := turned.became.exists_analysis analysed {}
  exact ⟨storage, reused, rename, wellFormed, valid, wellFormedResult, validResult, analysed,
    analysedResult, turned⟩

namespace ReusePair

variable {rules : Rules} {accepts : Signatures} {submodules : Forest} {source result : Graph}
variable (pair : ReusePair rules accepts submodules source result)

theorem became : Graph.Became rules pair.storage pair.rename source.nodes result.nodes :=
  pair.turned.became

theorem describes : Storage.Describes rules submodules pair.storage source.nodes :=
  Storage.describes pair.analysed pair.wellFormed.distinct pair.valid.closed

theorem describesResult : Storage.Describes rules submodules pair.reused result.nodes :=
  Storage.describes pair.analysedResult pair.wellFormedResult.distinct pair.validResult.closed

/-- What became of the node at a position. -/
theorem exists_new {position : Nat} {node : Node} (isNode : source.nodes[position]? = some node) :
    ∃ new, result.nodes[position]? = some new ∧
      node.Became rules pair.storage pair.rename (source.nodes.drop (position + 1)) new := by
  obtain ⟨new, isNew, -⟩ := pair.became.exists_new isNode
  exact ⟨new, isNew, (pair.turned.at_position isNode isNew).became⟩

/-- What became of a node shares the storage of what became of the value whose storage it shared. -/
theorem owner_of_shared {before later : List Node} {node : Node} {target : NodeId}
    (split : source.nodes = before ++ node :: later)
    (shared : (node.placement rules submodules).target? = some target) :
    pair.reused.owner[pair.rename node.id]? = pair.reused.owner[pair.rename target]? := by
  obtain ⟨front, new, back, splitResult, -, -, here, -⟩ := (split ▸ pair.became).split
  have moved : (new.placement rules submodules).target? = some (pair.rename target) := by
    rcases here.placement submodules with same | ⟨fresh, -⟩
    · rw [same, Placement.target?_map, shared]
      rfl
    · rw [fresh] at shared
      cases shared
  rw [← here.id_eq, pair.describesResult.shared front new back _ splitResult moved]

/-- What became of a value lies in the storage of what became of its owner. -/
theorem owner_rename {before later : List Node} (split : source.nodes = before ++ later) :
    ∀ id ∈ before.map Node.id, ∀ owner, pair.storage.owner[id]? = some owner →
      pair.reused.owner[pair.rename id]? = pair.reused.owner[pair.rename owner]? := by
  induction before using List.reverseRecOn generalizing later with
  | nil => exact fun id impossible => absurd impossible List.not_mem_nil
  | append_singleton before node ih =>
      rw [List.append_assoc, List.singleton_append] at split
      intro id isEarlier owner isOwner
      rw [List.map_append, List.mem_append, List.map_singleton, List.mem_singleton] at isEarlier
      rcases isEarlier with isEarlier | rfl
      · exact ih split id isEarlier owner isOwner
      · cases shared : (node.placement rules submodules).target? with
        | none =>
            rw [pair.describes.fresh before node later split shared] at isOwner
            rw [Option.some.inj isOwner]
        | some target =>
            have isTarget := (split ▸ pair.valid.closed).mem_before
              (Node.mem_inputs_of_placement shared)
            rw [pair.describes.shared before node later target split shared] at isOwner
            rw [pair.owner_of_shared split shared]
            exact ih split target isTarget owner isOwner

/-- Values that share storage still share it. -/
theorem together_rename {left right : NodeId} (isLeft : left ∈ source.ids)
    (isRight : right ∈ source.ids) (same : pair.storage.together left right = true) :
    pair.reused.together (pair.rename left) (pair.rename right) = true := by
  obtain ⟨owner, ownsLeft, ownsRight⟩ := Storage.together_eq_true same
  have moved := pair.owner_rename (List.append_nil source.nodes).symm
  have isNew : pair.rename left ∈ result.nodes.map Node.id := by
    rw [pair.became.map_id]
    exact List.mem_map_of_mem isLeft
  obtain ⟨newOwner, -, found⟩ :=
    pair.describesResult.inside result.nodes [] (List.append_nil _).symm _ isNew
  refine Storage.together_of_owner found ?_
  rw [← found, moved left isLeft owner ownsLeft, moved right isRight owner ownsRight]

/-- The shape of a value stays known. -/
theorem shapeOf?_rename {id : NodeId} (isNode : id ∈ source.ids) :
    result.shapeOf? (pair.rename id) = source.shapeOf? id := by
  obtain ⟨node, isMember, rfl⟩ := List.mem_map.mp isNode
  obtain ⟨before, later, split⟩ := List.append_of_mem isMember
  obtain ⟨front, new, back, splitResult, -, -, here, -⟩ := (split ▸ pair.became).split
  have found := Graph.find?_of_split pair.wellFormed split
  have foundNew := Graph.find?_of_split pair.wellFormedResult splitResult
  rw [here.id_eq] at foundNew
  rw [Graph.shapeOf?, Graph.shapeOf?, found, foundNew]
  cases here with
  | kept => rfl
  | @changed plan =>
      show ((node.info.map _).bind ValueInfo.shape) = node.info.bind ValueInfo.shape
      cases node.info with
      | none => rfl
      | some info => rfl

/-- A second argument that spares the first one in the result did so in the source. -/
theorem spares_of_rename {shape : List Nat} {first : NodeId} {second : Arg}
    (isFirst : first ∈ source.ids) (areNodes : ∀ id ∈ second.refs, id ∈ source.ids)
    (spares : pair.reused.Spares result shape (pair.rename first)
      (second.bind fun id => .ref (pair.rename id))) :
    pair.storage.Spares source shape first second := by
  cases second with
  | literal value => exact .literal value
  | tuple items => cases spares
  | ref id =>
      have isSecond := areNodes id (List.mem_singleton_self id)
      cases spares with
      | ref apart sameShape =>
          rw [pair.shapeOf?_rename isSecond] at sameShape
          refine .ref (Bool.eq_false_of_not_eq_true fun same => ?_) sameShape
          cases apart.symm.trans (pair.together_rename isFirst isSecond same)

/-- No changed call has read anything through its flag alone. -/
def KeepsInputs : Prop :=
  ∀ node ∈ source.nodes, pair.rename node.id ≠ node.id → node.toInstruction.ReadsApartFromFlag

variable {pair}

/-- What became of a node reads what became of the inputs of the node. -/
theorem KeepsInputs.mem_inputs (keeps : pair.KeepsInputs) {node new : Node} {later : List Node}
    (isNode : node ∈ source.nodes)
    (became : node.Became rules pair.storage pair.rename later new) {id : NodeId}
    (isInput : id ∈ node.inputs) : pair.rename id ∈ new.inputs := by
  cases became with
  | kept =>
      show pair.rename id ∈ (node.toInstruction.bind _).inputs
      rw [Instruction.inputs_bind_ref]
      exact List.mem_map_of_mem isInput
  | changed different grants =>
      show pair.rename id ∈ ((ReusePlan.apply _ node.toInstruction).bind _).inputs
      rw [Instruction.inputs_bind_ref]
      exact List.mem_map_of_mem (grants.mem_inputs_apply (keeps node isNode different) isInput)

/-- Storage that has expired in the result had expired in the source. -/
theorem KeepsInputs.expired (keeps : pair.KeepsInputs) {position : Nat} {id : NodeId}
    (isNode : id ∈ source.ids)
    (expired : pair.reused.Expired result.nodes (result.nodes.drop position) (pair.rename id)) :
    pair.storage.Expired source.nodes (source.nodes.drop position) id := by
  constructor
  · intro node isMember same
    obtain ⟨place, isPlace⟩ := List.mem_iff_getElem?.mp isMember
    obtain ⟨new, isNew, became⟩ := pair.exists_new isPlace
    have together := pair.together_rename (List.mem_map_of_mem isMember) isNode same
    rw [← became.id_eq] at together
    rw [← became.op_eq]
    exact expired.unobserved new (List.mem_of_getElem? isNew) together
  · intro reader isLater input isInput
    obtain ⟨distance, isReader⟩ := List.mem_iff_getElem?.mp isLater
    rw [List.getElem?_drop] at isReader
    have isMember := List.mem_of_getElem? isReader
    obtain ⟨new, isNew, became⟩ := pair.exists_new isReader
    have isNewLater : new ∈ result.nodes.drop position := by
      refine List.mem_iff_getElem?.mpr ⟨distance, ?_⟩
      rw [List.getElem?_drop, isNew]
    have unread := expired.unread new isNewLater _ (keeps.mem_inputs isMember became isInput)
    refine Bool.eq_false_of_not_eq_true fun same => ?_
    have isSource := pair.valid.closed.mem_ids isMember isInput
    cases unread.symm.trans (pair.together_rename isSource isNode same)

/-- A node that can reuse storage under its new names could do so in the source. -/
theorem KeepsInputs.exists_reuses (keeps : pair.KeepsInputs) {position : Nat} {node : Node}
    (isNode : node ∈ source.nodes) {kwargs : Kwargs NodeId}
    (reuses : Node.Reuses rules accepts result pair.reused (result.nodes.drop position)
      { node with toInstruction := node.toInstruction.bind fun id => .ref (pair.rename id) }
      kwargs) :
    ∃ kwargs, node.Reuses rules accepts source pair.storage (source.nodes.drop position)
      kwargs := by
  cases reuses with
  | flag isFunction impure only expired flagged =>
      obtain ⟨operand, single, rfl⟩ := Instruction.only_of_bind only
      have isSource := pair.valid.closed.mem_ids isNode (ReusePlan.mem_inputs_of_only single)
      exact ⟨_, .flag isFunction impure single (keeps.expired isSource expired) flagged⟩
  | receiver isFunction impure only expired unflagged accepting =>
      obtain ⟨operand, single, rfl⟩ := Instruction.only_of_bind only
      have isSource := pair.valid.closed.mem_ids isNode (ReusePlan.mem_inputs_of_only single)
      exact ⟨_, .receiver isFunction impure single (keeps.expired isSource expired) unflagged
        accepting⟩
  | elementwise isFunction impure args positional elementwise accepting expired known sameShape
      spares =>
      obtain ⟨left, right, pairOfArgs, renamedLeft, renamedRight⟩ := Argument.exists_of_bindAll args
      obtain ⟨first, rfl, rfl⟩ := Argument.bind_eq_ref renamedLeft
      have isSource := pair.valid.closed.mem_ids isNode (Instruction.mem_inputs_of_args pairOfArgs)
      have noKeywords : node.kwargs.erase Rules.inplaceKeyword = ∅ := by
        have empty : (Kwargs.bind (fun id => .ref (pair.rename id))
            (node.kwargs.erase Rules.inplaceKeyword)).isEmpty = true := by
          rw [Kwargs.bind_erase]
          exact Std.ExtTreeMap.isEmpty_iff.mpr positional
        rw [Kwargs.isEmpty_bind] at empty
        exact Std.ExtTreeMap.isEmpty_iff.mp empty
      rw [pair.shapeOf?_rename isSource] at sameShape
      refine ⟨_, .elementwise isFunction impure pairOfArgs noKeywords elementwise accepting
        (keeps.expired isSource expired) known sameShape ?_⟩
      rw [← renamedRight] at spares
      refine pair.spares_of_rename isSource (fun id isRef => ?_) spares
      refine pair.valid.closed.mem_ids isNode (Instruction.mem_inputs.mpr (Or.inl ?_))
      rw [pairOfArgs]
      exact Argument.mem_refsAll.mpr ⟨right, by simp, isRef⟩

/-- A call that is planned for again is told what it has been told. -/
theorem KeepsInputs.apply_eq_self (keeps : pair.KeepsInputs) {position : Nat} {new : Node}
    (isNew : result.nodes[position]? = some new) {plan : ReusePlan}
    (planned : new.reusePlan? rules accepts result
      (pair.reused.readBy (result.nodes.drop (position + 1))) = some plan) :
    plan.apply new.toInstruction = new.toInstruction := by
  obtain ⟨inRange, -⟩ := List.getElem?_eq_some_iff.mp isNew
  rw [pair.became.length_eq] at inRange
  obtain ⟨node, isNode⟩ : ∃ node, source.nodes[position]? = some node :=
    ⟨_, List.getElem?_eq_getElem inRange⟩
  have isMember := List.mem_of_getElem? isNode
  have here := pair.turned.at_position isNode isNew
  have again := (Storage.reuses_iff pair.analysedResult pair.wellFormedResult pair.validResult
    (List.mem_of_getElem? isNew)).mp (congrArg (Option.map ReusePlan.kwargs) planned)
  have decided := fun kwargs => @Storage.reuses_iff rules accepts submodules source pair.storage
    (source.nodes.drop (position + 1)) node kwargs pair.analysed pair.wellFormed pair.valid isMember
  generalize node.reusePlan? rules accepts source
    (pair.storage.readBy (source.nodes.drop (position + 1))) = plan? at here decided
  cases here with
  | kept =>
      obtain ⟨kwargs, reuses⟩ := keeps.exists_reuses isMember again
      cases (decided kwargs).mpr reuses
  | @changed first name different =>
      have told := ((decided first.kwargs).mp rfl).told_again again rfl rfl rfl
      have marked : ∀ info : Option ValueInfo,
          ((info.map fun info => { info with isMutation := true }).map
            fun info => { info with isMutation := true }) =
              info.map fun info => { info with isMutation := true } := by
        intro info
        cases info <;> rfl
      rw [ReusePlan.apply, told]
      exact congrArg (fun info => { ((first.apply node.toInstruction).bind
        fun id => .ref (pair.rename id)) with info }) (marked node.info)

end ReusePair

/-- Nodes whose plans change nothing are only renumbered. -/
theorem Graph.Turned.renumberedBy {rules : Rules} {accepts : Signatures} {graph : Graph}
    {storage : Storage} {rename : NodeId → NodeId} {sources news : List Node}
    (turned : Graph.Turned rules accepts graph storage rename sources news)
    (settled : ∀ (position : Nat) (node : Node) (plan : ReusePlan),
      sources[position]? = some node →
        node.reusePlan? rules accepts graph (storage.readBy (sources.drop (position + 1))) =
          some plan → plan.apply node.toInstruction = node.toInstruction) :
    List.Forall₂ (Node.RenumberedBy rename) sources news := by
  induction turned with
  | nil => exact .nil
  | @cons source new later news first rest ih =>
      refine .cons ?_ (ih fun position => settled (position + 1))
      have here := fun plan => settled 0 source plan rfl
      rw [List.drop_one, List.tail_cons] at here
      generalize source.reusePlan? rules accepts graph (storage.readBy later) = plan? at first here
      cases first with
      | kept same => exact ⟨same.symm, rfl⟩
      | @changed plan _ => exact ⟨rfl, by rw [here plan rfl]⟩

/-- Storage can be reused again in a graph in which it has been reused.  That changes nothing but
numbers and names, provided that no call changed at first has read anything through its flag
alone. -/
theorem repeated_reuse_renumbers {rules : Rules} {accepts : Signatures} {program : Program}
    {graph : Graph} {calls : List ReusedCall} (wellFormed : program.graph.WellFormed)
    (valid : program.graph.validate = .ok ())
    (success : reuseStorage rules accepts program = .ok (graph, calls)) :
    ∃ again repeated,
      reuseStorage rules accepts { program with graph } = .ok (again, repeated) ∧
        ((∀ (position : Nat) (source new : Node), program.graph.nodes[position]? = some source →
          graph.nodes[position]? = some new → new.id ≠ source.id →
            source.toInstruction.ReadsApartFromFlag) → graph.Renumbered again) := by
  obtain ⟨pair⟩ := nonempty_reusePair wellFormed (Graph.validate_eq_ok_iff.mp valid) success
  obtain ⟨again, repeated, successAgain⟩ : ∃ again repeated,
      reuseStorage rules accepts { program with graph } = .ok (again, repeated) := by
    rcases @reuseInPlace_cases { program with graph } pair.wellFormedResult rules accepts with
      ⟨cause, failed, -⟩ | ⟨again, repeated, -, -, succeeded⟩
    · cases failed.symm.trans pair.analysedResult
    · exact ⟨again, repeated, succeeded⟩
  refine ⟨again, repeated, successAgain, fun reads => ?_⟩
  have keeps : pair.KeepsInputs := by
    intro node isNode different
    obtain ⟨position, isSource⟩ := List.mem_iff_getElem?.mp isNode
    obtain ⟨new, isNew, became⟩ := pair.exists_new isSource
    rw [← became.id_eq] at different
    exact reads position node new isSource isNew different
  obtain ⟨storage, rename, analysed, turned⟩ :=
    @exists_turned rules accepts { program with graph } again repeated pair.wellFormedResult
      pair.validResult successAgain
  obtain rfl := Except.ok.inj (pair.analysedResult.symm.trans analysed)
  obtain ⟨wellFormedAgain, -⟩ := @valid_reuseStorage rules accepts { program with graph } again
    repeated pair.wellFormedResult pair.validResult successAgain
  refine ⟨rename, fun left isLeft right isRight same => ?_, turned.renumberedBy ?_⟩
  · exact turned.became.rename_inj wellFormedAgain.distinct isLeft isRight same
  · exact fun position new plan isNew planned => keeps.apply_eq_self isNew planned

/-- Calls in a row, the last of which has a flag that refers to a node. -/
def flaggedByNode (flag : NodeId) : Program where
  graph :=
    { nodes :=
        [{ op := .placeholder, id := ⟨0⟩, name := "input" },
          { op := .callFunction ⟨"sin"⟩, args := [.ref ⟨0⟩], id := ⟨1⟩, name := "sin" },
          { op := .callFunction ⟨"exp"⟩, args := [.ref ⟨1⟩], id := ⟨2⟩, name := "exp" },
          { op := .callFunction ⟨"relu"⟩, args := [.ref ⟨2⟩],
            kwargs := (∅ : Kwargs NodeId).insert Rules.inplaceKeyword (.ref flag), id := ⟨3⟩,
            name := "relu" },
          { op := .output, args := [.ref ⟨3⟩], id := ⟨4⟩, name := "output" }]
      created := 5 }

/-- If the flag refers to the argument of the call, storage is reused by both calls in a row at
once, and a second time nothing changes. -/
theorem flaggedByArgument_renumbered :
    ∃ graph calls again repeated,
      reuseStorage reusingRules (fun _ => true) (flaggedByNode ⟨2⟩) = .ok (graph, calls) ∧
      reuseStorage reusingRules (fun _ => true) { flaggedByNode ⟨2⟩ with graph } =
        .ok (again, repeated) ∧
      calls.length = 2 ∧ graph.Renumbered again := by
  have counted : (fun result => result.2.length) <$>
      reuseStorage reusingRules (fun _ => true) (flaggedByNode ⟨2⟩) = .ok 2 := by decide +kernel
  obtain ⟨⟨graph, calls⟩, success, length⟩ := Outcome.map_eq_ok.mp counted
  obtain ⟨again, repeated, successAgain, renumbered⟩ :=
    repeated_reuse_renumbers ⟨by decide, by decide⟩ (by decide) success
  refine ⟨graph, calls, again, repeated, success, successAgain, length, renumbered ?_⟩
  intro position source new isSource _ _
  have reads : ∀ node ∈ (flaggedByNode ⟨2⟩).graph.nodes, node.toInstruction.ReadsApartFromFlag := by
    decide
  exact reads source (List.mem_of_getElem? isSource)

theorem Graph.Renumbered.isEmpty_kwargs {left right : Graph} (renumbered : left.Renumbered right) :
    (left.nodes.map fun node => node.kwargs.isEmpty) =
      right.nodes.map fun node => node.kwargs.isEmpty := by
  obtain ⟨number, -, nodes⟩ := renumbered
  generalize left.nodes = lefts, right.nodes = rights at nodes
  induction nodes with
  | nil => rfl
  | cons here _ ih =>
      rw [List.map_cons, List.map_cons, ih, here.instruction]
      exact congrArg (· :: _) (Kwargs.isEmpty_bind ..).symm

/-- If the flag refers to the value before, that value is needed until the flag is gone.  The second
time the call in the middle reuses its storage. -/
theorem flaggedByOlder_not_renumbered :
    (flaggedByNode ⟨1⟩).graph.WellFormed ∧ (flaggedByNode ⟨1⟩).graph.validate = .ok () ∧
      ∃ graph calls again repeated,
        reuseStorage reusingRules (fun _ => true) (flaggedByNode ⟨1⟩) = .ok (graph, calls) ∧
        reuseStorage reusingRules (fun _ => true) { flaggedByNode ⟨1⟩ with graph } =
          .ok (again, repeated) ∧ ¬graph.Renumbered again := by
  have plain : (do
      let (graph, _) ← reuseStorage reusingRules (fun _ => true) (flaggedByNode ⟨1⟩)
      let (again, _) ← reuseStorage reusingRules (fun _ => true) { flaggedByNode ⟨1⟩ with graph }
      return (graph.nodes.map fun node => node.kwargs.isEmpty,
        again.nodes.map fun node => node.kwargs.isEmpty)) =
      Except.ok ([true, true, true, false, true], [true, true, false, false, true]) := by
    decide +kernel
  obtain ⟨⟨graph, calls⟩, success, rest⟩ := Outcome.bind_eq_ok.mp plain
  obtain ⟨⟨again, repeated⟩, successAgain, kwargs⟩ := Outcome.bind_eq_ok.mp rest
  refine ⟨⟨by decide, by decide⟩, by decide, graph, calls, again, repeated, success, successAgain,
    fun renumbered => ?_⟩
  obtain ⟨first, second⟩ := Prod.mk.inj (Except.ok.inj kwargs)
  have same := renumbered.isEmpty_kwargs
  rw [first, second] at same
  cases same

end OpGraph
