import OpGraph.Proofs.ReuseMeaning

/-!
# The nodes of a graph in which storage is reused

Storage reuse keeps the number of nodes and their order.  Whether a call is changed is decided
during the walk, when later nodes have been exchanged already, but the decision is the one that the
source calls for: every node has a plan by what the nodes after it read in the source, and is turned
according to it (`Graph.Turned`).

So at every position stands the node that was there, or a changed call under a new identity, with
all references renamed (`Node.Became`).  The operand of a changed call lies in storage that nothing
observes and that no later node of the source reads (`Storage.Idle`).
-/

namespace OpGraph

/-- None of some nodes reads the storage of a value. -/
def Storage.Unread (storage : Storage) (later : List Node) (id : NodeId) : Prop :=
  ∀ node ∈ later, ∀ input ∈ node.inputs, storage.owner[input]? ≠ storage.owner[id]?

/-- The storage of a value is known and not in use, and none of some nodes reads it. -/
structure Storage.Idle (storage : Storage) (later : List Node) (id : NodeId) : Prop where
  free : storage.isFree id = true
  unread : storage.Unread later id

/-- What becomes of a node that the nodes `later` follow. -/
inductive Node.Became (rules : Rules) (storage : Storage) (rename : NodeId → NodeId)
    (source : Node) (later : List Node) : Node → Prop where
  /-- The node stays, and reads under new names. -/
  | kept (same : rename source.id = source.id) :
      Became rules storage rename source later
        { source with toInstruction := source.toInstruction.bind fun id => .ref (rename id) }
  /-- A call takes its place that uses the storage of an operand. -/
  | changed {plan : ReusePlan} {operand : NodeId} {name : String}
      (different : rename source.id ≠ source.id)
      (grants : plan.Grants rules source.toInstruction operand)
      (idle : storage.Idle later operand) :
      Became rules storage rename source later
        { toInstruction := (plan.apply source.toInstruction).bind fun id => .ref (rename id)
          id := rename source.id
          name }

/-- What becomes of some nodes. -/
inductive Graph.Became (rules : Rules) (storage : Storage) (rename : NodeId → NodeId) :
    List Node → List Node → Prop where
  | nil : Became rules storage rename [] []
  | cons {source new : Node} {later news : List Node}
      (first : source.Became rules storage rename later new)
      (rest : Became rules storage rename later news) :
      Became rules storage rename (source :: later) (new :: news)

namespace Node.Became

variable {rules : Rules} {storage : Storage} {rename : NodeId → NodeId} {source new : Node}
variable {later : List Node}

theorem id_eq (became : source.Became rules storage rename later new) :
    new.id = rename source.id := by
  cases became with
  | kept same => exact same.symm
  | changed => rfl

theorem op_eq (became : source.Became rules storage rename later new) : new.op = source.op := by
  cases became with
  | kept | changed => rfl

/-- What a node reads are the new names of what it read before. -/
theorem exists_of_mem_inputs (became : source.Became rules storage rename later new)
    {input : NodeId} (isInput : input ∈ new.inputs) :
    ∃ target ∈ source.inputs, rename target = input := by
  have renamed : ∀ instruction : Instruction,
      input ∈ (instruction.bind fun id => .ref (rename id)).inputs →
        ∃ target ∈ instruction.inputs, rename target = input := by
    intro instruction isInput
    obtain ⟨target, isTarget, isRef⟩ := Instruction.mem_inputs_bind.mp isInput
    exact ⟨target, isTarget, (List.mem_singleton.mp isRef).symm⟩
  cases became with
  | kept => exact renamed _ isInput
  | changed _ grants =>
      obtain ⟨target, isTarget, same⟩ := renamed _ isInput
      exact ⟨target, grants.reads target isTarget, same⟩

end Node.Became

namespace Graph.Became

variable {rules : Rules} {storage : Storage} {rename : NodeId → NodeId}
variable {sources news : List Node}

theorem map_id (became : Became rules storage rename sources news) :
    news.map Node.id = (sources.map Node.id).map rename := by
  induction became with
  | nil => rfl
  | cons first _ ih => rw [List.map_cons, List.map_cons, List.map_cons, first.id_eq, ih]

theorem length_eq (became : Became rules storage rename sources news) :
    news.length = sources.length := by
  induction became with
  | nil => rfl
  | cons _ _ ih => rw [List.length_cons, List.length_cons, ih]

/-- What becomes of the nodes before, at and after a position. -/
theorem split {before later : List Node} {source : Node}
    (became : Became rules storage rename (before ++ source :: later) news) :
    ∃ front new back, news = front ++ new :: back ∧ front.length = before.length ∧
      front.map Node.id = (before.map Node.id).map rename ∧
        source.Became rules storage rename later new ∧ Became rules storage rename later back := by
  induction before generalizing news with
  | nil =>
      cases became with
      | @cons _ new _ back first rest => exact ⟨[], new, back, rfl, rfl, rfl, first, rest⟩
  | cons node before ih =>
      cases became with
      | @cons _ other _ others first rest =>
          obtain ⟨front, new, back, rfl, length, ids, here, behind⟩ := ih rest
          refine ⟨other :: front, new, back, rfl, ?_, ?_, here, behind⟩
          · rw [List.length_cons, List.length_cons, length]
          · rw [List.map_cons, List.map_cons, List.map_cons, first.id_eq, ids]

/-- Every new node is what became of a node. -/
theorem exists_of_mem (became : Became rules storage rename sources news) {new : Node}
    (isNew : new ∈ news) :
    ∃ before source later, sources = before ++ source :: later ∧
      source.Became rules storage rename later new := by
  induction became with
  | nil => cases isNew
  | @cons source node later news first rest ih =>
      rcases List.mem_cons.mp isNew with rfl | isLater
      · exact ⟨[], source, later, rfl, first⟩
      · obtain ⟨before, other, others, rfl, here⟩ := ih isLater
        exact ⟨source :: before, other, others, rfl, here⟩

theorem exists_new (became : Became rules storage rename sources news) {position : Nat}
    {source : Node} (found : sources[position]? = some source) :
    ∃ new, news[position]? = some new ∧ new.id = rename source.id := by
  have ids := congrArg (fun ids => ids[position]?) became.map_id
  simp only [List.getElem?_map, found, Option.map_some] at ids
  exact Option.map_eq_some_iff.mp ids

/-- Distinct nodes have distinct new names. -/
theorem rename_inj (became : Became rules storage rename sources news)
    (distinct : (news.map Node.id).Nodup) {left right : NodeId}
    (isLeft : left ∈ sources.map Node.id) (isRight : right ∈ sources.map Node.id)
    (same : rename left = rename right) : left = right := by
  rw [became.map_id] at distinct
  exact List.inj_on_of_nodup_map distinct isLeft isRight same

end Graph.Became

/-! ### Storage that later nodes read -/

namespace Storage

variable {storage : Storage} {id : NodeId}

/-- The storage after some nodes have read their inputs, the last one first. -/
def readBy (storage : Storage) (nodes : List Node) : Storage :=
  nodes.foldr (fun node storage => node.inputs.foldl read storage) storage

theorem owner_readBy (storage : Storage) (nodes : List Node) :
    (storage.readBy nodes).owner = storage.owner := by
  induction nodes with
  | nil => rfl
  | cons node _ ih => exact (foldl_read node.inputs _).1.trans ih

/-- What is free after a value has been read was free before, and lies elsewhere. -/
theorem isFree_read (input : NodeId) :
    (storage.read input).isFree id = true ↔
      storage.isFree id = true ∧ storage.owner[input]? ≠ storage.owner[id]? := by
  unfold read isFree
  cases isOwner : storage.owner[id]? with
  | none =>
      cases storage.owner[input]? with
      | none => simp [isOwner]
      | some _ => simp [isOwner]
  | some owner =>
      cases storage.owner[input]? with
      | none => simp [isOwner]
      | some other => simp [isOwner, and_comm]

theorem isFree_foldl_read (inputs : List NodeId) :
    (inputs.foldl read storage).isFree id = true ↔
      storage.isFree id = true ∧ ∀ input ∈ inputs, storage.owner[input]? ≠ storage.owner[id]? := by
  induction inputs generalizing storage with
  | nil => simp
  | cons input rest ih =>
      have owner : (storage.read input).owner = storage.owner := (foldl_read [input] storage).1
      rw [List.foldl_cons, ih, isFree_read, owner, List.forall_mem_cons, and_assoc]

/-- Storage is free once some nodes have been read if and only if it is idle while they follow. -/
theorem isFree_readBy (later : List Node) :
    (storage.readBy later).isFree id = true ↔ storage.Idle later id := by
  induction later with
  | nil =>
      refine ⟨fun free => ⟨free, fun _ impossible => absurd impossible List.not_mem_nil⟩, ?_⟩
      exact fun idle => idle.free
  | cons node rest ih =>
      have unread : storage.Unread (node :: rest) id ↔
          (∀ input ∈ node.inputs, storage.owner[input]? ≠ storage.owner[id]?) ∧
            storage.Unread rest id := List.forall_mem_cons
      have step := @isFree_foldl_read (storage.readBy rest) id node.inputs
      rw [ih, owner_readBy] at step
      refine step.trans ⟨fun ⟨idle, here⟩ => ⟨idle.free, unread.mpr ⟨here, idle.unread⟩⟩, ?_⟩
      rintro ⟨free, all⟩
      obtain ⟨here, others⟩ := unread.mp all
      exact ⟨⟨free, others⟩, here⟩

end Storage

/-! ### Nodes and their plans -/

/-- What a plan makes of a node. -/
inductive Node.Turned (rename : NodeId → NodeId) (source : Node) : Option ReusePlan → Node → Prop
    where
  /-- Without a plan the node stays, and reads under new names. -/
  | kept (same : rename source.id = source.id) :
      Turned rename source none
        { source with toInstruction := source.toInstruction.bind fun id => .ref (rename id) }
  /-- The planned call takes its place. -/
  | changed {plan : ReusePlan} {name : String} (different : rename source.id ≠ source.id) :
      Turned rename source (some plan)
        { toInstruction := (plan.apply source.toInstruction).bind fun id => .ref (rename id)
          id := rename source.id
          name }

/-- What their plans in a graph make of some nodes. -/
inductive Graph.Turned (rules : Rules) (accepts : Signatures) (graph : Graph) (storage : Storage)
    (rename : NodeId → NodeId) : List Node → List Node → Prop where
  | nil : Turned rules accepts graph storage rename [] []
  | cons {source new : Node} {later news : List Node}
      (first : source.Turned rename
        (source.reusePlan? rules accepts graph (storage.readBy later)) new)
      (rest : Turned rules accepts graph storage rename later news) :
      Turned rules accepts graph storage rename (source :: later) (new :: news)

section Turned

variable {rules : Rules} {accepts : Signatures} {graph : Graph} {storage : Storage}
variable {rename : NodeId → NodeId} {sources news : List Node}

theorem Node.Turned.became {source new : Node} {later : List Node}
    (turned : source.Turned rename
      (source.reusePlan? rules accepts graph (storage.readBy later)) new) :
    source.Became rules storage rename later new := by
  generalize planned : source.reusePlan? rules accepts graph (storage.readBy later) = plan?
    at turned
  cases turned with
  | kept same => exact .kept same
  | changed different =>
      obtain ⟨-, operand, free, grants⟩ := Node.grants_of_reusePlan? planned
      exact .changed different grants ((Storage.isFree_readBy later).mp free)

theorem Graph.Turned.became
    (turned : Graph.Turned rules accepts graph storage rename sources news) :
    Graph.Became rules storage rename sources news := by
  induction turned with
  | nil => exact .nil
  | cons first _ ih => exact .cons first.became ih

end Turned

/-! ### The walk -/

section Redirect

variable {rename : NodeId → NodeId} {old new : NodeId}

/-- Renaming, and then another name for one node, is a renaming. -/
theorem Instruction.bind_rename_single (fixed : rename old = old)
    (others : ∀ id, id ≠ old → rename id ≠ old) (instruction : Instruction) :
    (instruction.bind fun id => .ref (rename id)).bind (Argument.single old (.ref new)) =
      instruction.bind fun id => .ref (Function.update rename old new id) := by
  rw [bind_bind]
  refine bind_congr fun id _ => ?_
  show Argument.single old (.ref new) (rename id) = _
  by_cases isOld : id = old
  · rw [isOld, fixed, Function.update_self, Argument.single, if_pos rfl]
  · rw [Function.update_of_ne isOld, Argument.single, if_neg (others id isOld)]

/-- A renaming that spares what a call reads leaves the call as it is. -/
theorem Instruction.bind_rename_eq_self {instruction : Instruction}
    (spared : ∀ input ∈ instruction.inputs, rename input = input) :
    (instruction.bind fun id => .ref (rename id)) = instruction := by
  rw [bind_congr fun input isInput => congrArg Argument.ref (spared input isInput)]
  exact bind_ref instruction

theorem Node.Turned.kept_of_spared {node : Node} (same : rename node.id = node.id)
    (spared : ∀ input ∈ node.inputs, rename input = input) : node.Turned rename none node := by
  have turned := kept same
  rw [Instruction.bind_rename_eq_self spared] at turned
  exact turned

theorem Node.Turned.changed_of_spared {node : Node} {plan : ReusePlan} {name : String}
    (different : rename node.id ≠ node.id)
    (spared : ∀ input ∈ (plan.apply node.toInstruction).inputs, rename input = input) :
    node.Turned rename (some plan)
      { toInstruction := plan.apply node.toInstruction, id := rename node.id, name } := by
  have turned := @changed rename node plan name different
  rw [Instruction.bind_rename_eq_self spared] at turned
  exact turned

theorem Node.Turned.redirect {source node : Node} {plan? : Option ReusePlan}
    (turned : source.Turned rename plan? node) (fixed : rename old = old)
    (others : ∀ id, id ≠ old → rename id ≠ old) (absent : source.id ≠ old) :
    source.Turned (Function.update rename old new) plan? (node.redirect old (.ref new)) := by
  have moved := Function.update_of_ne absent new rename
  cases turned with
  | kept same =>
      have kept := @kept (Function.update rename old new) source (moved.trans same)
      rw [← Instruction.bind_rename_single fixed others] at kept
      exact kept
  | @changed plan name different =>
      have changed := @changed (Function.update rename old new) source plan name
        (moved.symm ▸ different)
      rw [← Instruction.bind_rename_single fixed others, moved] at changed
      exact changed

theorem Graph.Turned.redirect {rules : Rules} {accepts : Signatures} {graph : Graph}
    {storage : Storage} {sources nodes : List Node}
    (turned : Graph.Turned rules accepts graph storage rename sources nodes)
    (fixed : rename old = old) (others : ∀ id, id ≠ old → rename id ≠ old)
    (absent : old ∉ sources.map Node.id) :
    Graph.Turned rules accepts graph storage (Function.update rename old new) sources
      (nodes.map (Node.redirect old (.ref new))) := by
  induction turned with
  | nil => exact .nil
  | cons first _ ih =>
      rw [List.map_cons, List.mem_cons, not_or] at absent
      exact .cons (first.redirect fixed others (Ne.symm absent.1)) (ih absent.2)

end Redirect

/-- A node before a position is found in any graph that begins with the same nodes. -/
theorem Graph.shapeOf?_eq_of_append {left right : Graph} {before : List Node}
    {lefts rights : List Node} (splitLeft : left.nodes = before ++ lefts)
    (splitRight : right.nodes = before ++ rights) {id : NodeId}
    (isBefore : id ∈ before.map Node.id) : left.shapeOf? id = right.shapeOf? id := by
  obtain ⟨node, member, same⟩ := List.mem_map.mp isBefore
  have isThere : (before.find? fun other => other.id = id).isSome = true :=
    List.find?_isSome.mpr ⟨node, member, decide_eq_true same⟩
  obtain ⟨found, isFound⟩ := Option.isSome_iff_exists.mp isThere
  have lookup : ∀ (graph : Graph) (rest : List Node), graph.nodes = before ++ rest →
      graph.find? id = some found := by
    intro graph rest split
    rw [find?, split, List.find?_append, isFound]
    rfl
  rw [shapeOf?, shapeOf?, lookup left lefts splitLeft, lookup right rights splitRight]

theorem ReusePlan.admitsBinary_congr {left right : Graph} {first second : Arg}
    (shapes : ∀ id ∈ first.refs ++ second.refs, left.shapeOf? id = right.shapeOf? id)
    (storage : Storage) (info : Option ValueInfo) :
    admitsBinary left storage info first second = admitsBinary right storage info first second := by
  cases first with
  | literal value => rfl
  | tuple items => rfl
  | ref id =>
      have here := shapes id List.mem_cons_self
      have fits : ∀ shape, admitsSecond left storage shape id second =
          admitsSecond right storage shape id second := by
        intro shape
        cases second with
        | literal value => rfl
        | tuple items => rfl
        | ref other =>
            have there := shapes other (List.mem_cons_of_mem _ List.mem_cons_self)
            rw [admitsSecond, admitsSecond, there]
      unfold admitsBinary
      cases info.bind ValueInfo.shape with
      | none => rfl
      | some shape =>
          dsimp only
          rw [here, fits]

/-- The plan for a node depends on the graph by the shapes of what the node reads only. -/
theorem Node.reusePlan?_congr {left right : Graph} {node : Node}
    (shapes : ∀ id ∈ node.inputs, left.shapeOf? id = right.shapeOf? id) (rules : Rules)
    (accepts : Signatures) (storage : Storage) :
    node.reusePlan? rules accepts left storage = node.reusePlan? rules accepts right storage := by
  have binary : ∀ function kwargs,
      ReusePlan.binary? rules accepts left storage function node.toInstruction kwargs =
        ReusePlan.binary? rules accepts right storage function node.toInstruction kwargs := by
    intro function kwargs
    unfold ReusePlan.binary?
    split
    · next first second args =>
      rw [ReusePlan.admitsBinary_congr fun id isRef => shapes id ?_]
      refine Instruction.mem_inputs.mpr (Or.inl ?_)
      rw [args]
      simpa [Argument.refsAll] using isRef
    · rfl
  unfold reusePlan? ReusePlan.of?
  simp only [binary]

namespace ReuseWalk

variable {rules : Rules} {accepts : Signatures} {source : Graph} {analysis : Storage}
variable {rename : NodeId → NodeId} {walk : ReuseWalk} {before after rest : List Node} {node : Node}

/-- The walk has read the nodes `rest` of the source and turned them into `after`. -/
structure Follows (rules : Rules) (accepts : Signatures) (source : Graph) (analysis : Storage)
    (rename : NodeId → NodeId) (walk : ReuseWalk) (rest after : List Node) : Prop where
  storage : walk.storage = analysis.readBy rest
  turned : Graph.Turned rules accepts source analysis rename rest after
  /-- Nodes that have not been visited keep their names. -/
  others : ∀ id, id ∉ rest.map Node.id → rename id = id

theorem Follows.visit (follows : Follows rules accepts source analysis rename walk rest after)
    (stage : walk.Stage (before ++ [node]) after) (wellFormed : source.WellFormed)
    (splitSource : source.nodes = before ++ node :: rest) :
    ∃ rename, Follows rules accepts source analysis rename (walk.visit rules accepts node.id)
      (node :: rest)
      (walk.visited after node (node.reusePlan? rules accepts walk.graph walk.storage)) := by
  obtain ⟨-, -, read⟩ := stage.visit accepts
  rw [follows.storage] at read
  have split : walk.graph.nodes = before ++ node :: after := by
    rw [stage.split, List.append_assoc, List.singleton_append]
  have closed : Graph.Closed ∅ (before ++ node :: after) := by
    have whole := stage.valid.closed
    rw [List.append_assoc] at whole
    exact whole
  have distinct := wellFormed.distinct
  rw [Graph.ids, splitSource, List.map_append, List.map_cons, List.nodup_append, List.nodup_cons]
    at distinct
  obtain ⟨-, ⟨absent, -⟩, apart⟩ := distinct
  -- The node reads only nodes that have not been visited.
  have earlier : ∀ input ∈ node.inputs, input ∈ before.map Node.id :=
    fun input isInput => closed.mem_before isInput
  have unvisited : ∀ input ∈ node.inputs, rename input = input := by
    intro input isInput
    refine follows.others input fun isLater => ?_
    exact apart input (earlier input isInput) input (List.mem_cons_of_mem _ isLater) rfl
  have fixed := follows.others node.id absent
  have planned : node.reusePlan? rules accepts walk.graph walk.storage =
      node.reusePlan? rules accepts source (analysis.readBy rest) := by
    rw [follows.storage]
    refine Node.reusePlan?_congr (fun input isInput => ?_) rules accepts _
    exact Graph.shapeOf?_eq_of_append split splitSource (earlier input isInput)
  rw [planned]
  cases decided : node.reusePlan? rules accepts source (analysis.readBy rest) with
  | none =>
      refine ⟨rename, read, .cons ?_ follows.turned, ?_⟩
      · rw [decided]
        exact .kept_of_spared fixed unvisited
      · intro id outside
        rw [List.map_cons, List.mem_cons, not_or] at outside
        exact follows.others id outside.2
  | some plan =>
      obtain ⟨-, operand, -, grants⟩ := Node.grants_of_reusePlan? decided
      have others : ∀ id, id ≠ node.id → rename id ≠ node.id := by
        intro id different same
        by_cases isLater : id ∈ rest.map Node.id
        · refine stage.wellFormed.not_mem_after split ?_
          rw [follows.turned.became.map_id, ← same]
          exact List.mem_map_of_mem isLater
        · exact different ((follows.others id isLater).symm.trans same)
      have isNew : walk.graph.nextId ≠ node.id := by
        intro same
        refine stage.wellFormed.nextId_not_mem ?_
        rw [same, Graph.ids, split]
        simp
      refine ⟨Function.update rename node.id walk.graph.nextId, read,
        .cons ?_ (follows.turned.redirect fixed others absent), ?_⟩
      · have spared : ∀ input ∈ (plan.apply node.toInstruction).inputs,
            Function.update rename node.id walk.graph.nextId input = input := by
          intro input isInput
          have isOld := grants.reads input isInput
          have different : input ≠ node.id := by
            intro isNode
            exact apart input (earlier _ isOld) node.id List.mem_cons_self isNode
          rw [Function.update_of_ne different, unvisited input isOld]
        have moved := Function.update_self node.id walk.graph.nextId rename
        have changed := @Node.Turned.changed_of_spared (Function.update rename node.id _) node plan
          (walk.graph.newNode (plan.apply node.toInstruction) none).name (moved.symm ▸ isNew) spared
        rw [decided]
        rw [moved] at changed
        exact changed
      · intro id outside
        rw [List.map_cons, List.mem_cons, not_or] at outside
        rw [Function.update_of_ne outside.1, follows.others id outside.2]

end ReuseWalk

section Program

variable {rules : Rules} {accepts : Signatures} {program : Program} {graph : Graph}
variable {calls : List ReusedCall}

/-- Every node of a program in which storage is reused is turned according to its plan in the
source. -/
theorem exists_turned (wellFormed : program.graph.WellFormed)
    (valid : Graph.Valid program.graph.nodes)
    (success : reuseStorage rules accepts program = .ok (graph, calls)) :
    ∃ storage rename, Storage.ofProgram rules program = .ok storage ∧
      Graph.Turned rules accepts program.graph storage rename program.graph.nodes graph.nodes := by
  obtain ⟨walk, ⟨storage, rename, rest, analysed, whole, follows⟩, -, -⟩ :=
    reuseStorage_visited
      (motive := fun before after walk => ∃ storage rename rest,
        Storage.ofProgram rules program = .ok storage ∧ program.graph.nodes = before ++ rest ∧
          walk.Follows rules accepts program.graph storage rename rest after)
      (by
        rintro before node after walk ⟨storage, rename, rest, analysed, split, follows⟩ stage
        rw [List.append_assoc, List.singleton_append] at split
        obtain ⟨rename, follows⟩ := follows.visit stage wellFormed split
        exact ⟨storage, rename, node :: rest, analysed, split, follows⟩)
      wellFormed valid
      (fun storage analysed => ⟨storage, id, [], analysed, (List.append_nil _).symm, rfl, .nil,
        fun _ _ => rfl⟩)
      success
  obtain rfl : program.graph.nodes = rest := whole
  exact ⟨storage, rename, analysed, follows.turned⟩

/-- What becomes of the nodes of a program in which storage is reused. -/
theorem exists_became (wellFormed : program.graph.WellFormed)
    (valid : Graph.Valid program.graph.nodes)
    (success : reuseStorage rules accepts program = .ok (graph, calls)) :
    ∃ storage rename, Storage.ofProgram rules program = .ok storage ∧
      Graph.Became rules storage rename program.graph.nodes graph.nodes := by
  obtain ⟨storage, rename, analysed, turned⟩ := exists_turned wellFormed valid success
  exact ⟨storage, rename, analysed, turned.became⟩

end Program

end OpGraph
