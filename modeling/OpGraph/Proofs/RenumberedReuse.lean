import OpGraph.Proofs.Renumbering
import OpGraph.Proofs.StaleReads

/-!
# Storage reuse under other numbers

The owners of storage and the storage in use correspond in graphs that are the same up to
numbering.  Owners stay known when their nodes have been replaced, so a numbering of all identities
seen so far relates the storage of both sides through the whole walk, and a call gets the same plan
on both sides.
-/

namespace OpGraph

/-! ### What a renumbered call reads -/

theorem Argument.refs_bind_ref {ρ σ : Type} (rename : ρ → σ) (argument : Argument ρ) :
    (argument.bind fun id => ref (rename id)).refs = argument.refs.map rename := by
  rw [refs_bind, List.map_eq_flatMap]
  rfl

theorem Instruction.inputs_bind_ref (rename : NodeId → NodeId) (instruction : Instruction) :
    (instruction.bind fun id => .ref (rename id)).inputs = instruction.inputs.map rename := by
  have args := Argument.refs_bind_ref rename (.tuple instruction.args)
  have kwargs : (Kwargs.bind (fun id => .ref (rename id)) instruction.kwargs).refs =
      instruction.kwargs.refs.map rename := by
    simp only [Kwargs.refs, Kwargs.bind, Std.ExtTreeMap.toList_map, List.flatMap_map,
      List.map_flatMap, Argument.refs_bind_ref]
  rw [inputs, inputs, List.map_append, ← kwargs]
  exact congrArg (· ++ _) args

theorem Kwargs.bind_insert {ρ σ : Type} (image : ρ → Argument σ) (kwargs : Kwargs ρ)
    (keyword : String) (argument : Argument ρ) :
    Kwargs.bind image (kwargs.insert keyword argument) =
      (kwargs.bind image).insert keyword (argument.bind image) := by
  apply Std.ExtTreeMap.ext_getElem?
  intro other
  rw [Kwargs.getElem?_bind, Std.ExtTreeMap.getElem?_insert, Std.ExtTreeMap.getElem?_insert,
    Kwargs.getElem?_bind]
  split <;> rfl

namespace Numbering

variable {numbering smaller larger : Numbering}

/-! ### Storage -/

/-- The storage of corresponding nodes has corresponding owners and is in use on both sides or on
neither.  Nothing is said of unknown nodes on either side. -/
structure StoragePair (numbering : Numbering) (left right : Storage) : Prop where
  owner : ∀ id ∈ numbering.known,
    right.owner[numbering.number id]? = left.owner[id]?.map numbering.number
  owned : ∀ id owner, left.owner[id]? = some owner →
    id ∈ numbering.known ∧ owner ∈ numbering.known
  ownedRight : ∀ id, right.owner[id]? ≠ none → ∃ source ∈ numbering.known,
    numbering.number source = id
  inUse : ∀ id ∈ numbering.known,
    right.inUse.contains (numbering.number id) = left.inUse.contains id
  used : ∀ id, left.inUse.contains id = true → id ∈ numbering.known
  usedRight : ∀ id, right.inUse.contains id = true → ∃ source ∈ numbering.known,
    numbering.number source = id

namespace StoragePair

variable {left right : Storage} {id owner target : NodeId}

theorem empty (numbering : Numbering) : numbering.StoragePair {} {} := by
  constructor <;> intros <;> simp_all

/-- A node that was unknown has no owner and is not in use on either side. -/
theorem mono (pair : smaller.StoragePair left right) (extension : larger.Extends smaller) :
    larger.StoragePair left right := by
  have unknownRight : ∀ id ∈ larger.known, id ∉ smaller.known → ∀ source ∈ smaller.known,
      smaller.number source ≠ larger.number id := by
    intro id isKnown unknown source isSource equal
    rw [← extension.agrees isSource] at equal
    exact unknown (larger.injective (extension.subset isSource) isKnown equal ▸ isSource)
  refine ⟨fun id isKnown => ?_, fun id owner found => ?_, fun id found => ?_,
    fun id isKnown => ?_, fun id found => extension.subset (pair.used id found),
    fun id found => ?_⟩
  · by_cases before : id ∈ smaller.known
    · rw [extension.agrees before, pair.owner id before]
      refine Option.map_congr fun owner found => ?_
      exact (extension.agrees (pair.owned id owner found).2).symm
    · have noOwner : left.owner[id]? = none :=
        Option.eq_none_iff_forall_ne_some.mpr fun owner found =>
          before (pair.owned id owner found).1
      rw [noOwner]
      by_contra found
      obtain ⟨source, isSource, equal⟩ := pair.ownedRight _ found
      exact unknownRight id isKnown before source isSource equal
  · exact (pair.owned id owner found).imp (@extension.subset _) (@extension.subset _)
  · obtain ⟨source, isSource, rfl⟩ := pair.ownedRight id found
    exact ⟨source, extension.subset isSource, extension.agrees isSource⟩
  · by_cases before : id ∈ smaller.known
    · rw [extension.agrees before, pair.inUse id before]
    · have unused : left.inUse.contains id = false :=
        Bool.eq_false_of_not_eq_true fun found => before (pair.used id found)
      rw [unused]
      refine Bool.eq_false_of_not_eq_true fun found => ?_
      obtain ⟨source, isSource, equal⟩ := pair.usedRight _ found
      exact unknownRight id isKnown before source isSource equal
  · obtain ⟨source, isSource, rfl⟩ := pair.usedRight id found
    exact ⟨source, extension.subset isSource, extension.agrees isSource⟩

theorem assign (pair : numbering.StoragePair left right) (isKnown : id ∈ numbering.known)
    (ownerKnown : owner ∈ numbering.known) :
    numbering.StoragePair { left with owner := left.owner.insert id owner }
      { right with
        owner := right.owner.insert (numbering.number id) (numbering.number owner) } := by
  have compare_iff : ∀ first second : NodeId, compare first second = .eq ↔ first = second :=
    fun _ _ => Std.compare_eq_iff_eq
  refine ⟨fun other otherKnown => ?_, fun other found isFound => ?_, fun other found => ?_,
    pair.inUse, pair.used, pair.usedRight⟩
  · rw [Std.ExtTreeMap.getElem?_insert, Std.ExtTreeMap.getElem?_insert]
    by_cases here : id = other
    · rw [if_pos ((compare_iff _ _).mpr (congrArg _ here)), if_pos ((compare_iff _ _).mpr here)]
      rfl
    · have different : numbering.number id ≠ numbering.number other := fun equal =>
        here (numbering.injective isKnown otherKnown equal)
      rw [if_neg fun equal => different ((compare_iff _ _).mp equal),
        if_neg fun equal => here ((compare_iff _ _).mp equal)]
      exact pair.owner other otherKnown
  · rw [Std.ExtTreeMap.getElem?_insert] at isFound
    split at isFound
    · next here =>
      obtain rfl := Option.some.inj isFound
      exact ⟨(compare_iff _ _).mp here ▸ isKnown, ownerKnown⟩
    · exact pair.owned other found isFound
  · rw [Std.ExtTreeMap.getElem?_insert] at found
    split at found
    · next here => exact ⟨id, isKnown, (compare_iff _ _).mp here⟩
    · exact pair.ownedRight other found

theorem bringIntoUse (pair : numbering.StoragePair left right) (isKnown : id ∈ numbering.known) :
    numbering.StoragePair { left with inUse := left.inUse.insert id }
      { right with inUse := right.inUse.insert (numbering.number id) } := by
  have inserted : ∀ (set : Std.ExtTreeSet NodeId) (first second : NodeId),
      (set.insert first).contains second = (decide (first = second) || set.contains second) := by
    intro set first second
    rw [Std.ExtTreeSet.contains_insert, Bool.eq_iff_iff]
    simp
  refine ⟨pair.owner, pair.owned, pair.ownedRight, fun other otherKnown => ?_,
    fun other found => ?_, fun other found => ?_⟩
  · rw [inserted, inserted, pair.inUse other otherKnown]
    simp only [numbering.injective.eq_iff isKnown otherKnown]
  · rw [inserted, Bool.or_eq_true, decide_eq_true_iff] at found
    rcases found with rfl | before
    · exact isKnown
    · exact pair.used other before
  · rw [inserted, Bool.or_eq_true, decide_eq_true_iff] at found
    rcases found with rfl | before
    · exact ⟨id, isKnown, rfl⟩
    · exact pair.usedRight other before

theorem allot (pair : numbering.StoragePair left right) (isKnown : id ∈ numbering.known) :
    numbering.StoragePair (left.allot id) (right.allot (numbering.number id)) :=
  pair.assign isKnown isKnown

theorem pin (pair : numbering.StoragePair left right) (isKnown : id ∈ numbering.known) :
    numbering.StoragePair (left.pin id) (right.pin (numbering.number id)) :=
  (pair.allot isKnown).bringIntoUse isKnown

theorem share (pair : numbering.StoragePair left right) (isKnown : id ∈ numbering.known)
    (targetKnown : target ∈ numbering.known) :
    numbering.StoragePair (left.share id target)
      (right.share (numbering.number id) (numbering.number target)) := by
  rw [Storage.share, Storage.share, pair.owner target targetKnown]
  cases found : left.owner[target]? with
  | some owner => exact pair.assign isKnown (pair.owned target owner found).2
  | none => exact pair.allot isKnown

theorem read (pair : numbering.StoragePair left right) (isKnown : id ∈ numbering.known) :
    numbering.StoragePair (left.read id) (right.read (numbering.number id)) := by
  rw [Storage.read, Storage.read, pair.owner id isKnown]
  cases found : left.owner[id]? with
  | some owner => exact pair.bringIntoUse (pair.owned id owner found).2
  | none => exact pair

theorem isFree (pair : numbering.StoragePair left right) (isKnown : id ∈ numbering.known) :
    right.isFree (numbering.number id) = left.isFree id := by
  rw [Storage.isFree, Storage.isFree, pair.owner id isKnown]
  cases found : left.owner[id]? with
  | some owner =>
      dsimp only [Option.map_some]
      rw [pair.inUse owner (pair.owned id owner found).2]
  | none => rfl

theorem together (pair : numbering.StoragePair left right) (isKnown : id ∈ numbering.known)
    (targetKnown : target ∈ numbering.known) :
    right.together (numbering.number id) (numbering.number target) = left.together id target := by
  rw [Storage.together, Storage.together, pair.owner id isKnown, pair.owner target targetKnown]
  cases found : left.owner[id]? with
  | none => rfl
  | some owner =>
      cases foundTarget : left.owner[target]? with
      | none => rfl
      | some other =>
          have iff := numbering.injective.eq_iff (pair.owned id owner found).2
            (pair.owned target other foundTarget).2
          simp only [Option.map_some, iff]

theorem readAll (pair : numbering.StoragePair left right) {inputs : List NodeId}
    (areKnown : ∀ input ∈ inputs, input ∈ numbering.known) :
    numbering.StoragePair (inputs.foldl Storage.read left)
      ((inputs.map numbering.number).foldl Storage.read right) := by
  induction inputs generalizing left right with
  | nil => exact pair
  | cons input rest ih =>
      obtain ⟨isKnown, others⟩ := List.forall_mem_cons.mp areKnown
      exact ih (pair.read isKnown) others

end StoragePair

section Analysis

variable {rules : Rules} {submodules : Forest} {node nodeRight : Node}

theorem sharedArgument? (nodes : numbering.NodePair node nodeRight) :
    Storage.sharedArgument? rules submodules nodeRight =
      Option.map numbering.number <$> Storage.sharedArgument? rules submodules node := by
  have op : nodeRight.op = node.op := nodes.instruction.op_eq
  have first : nodeRight.firstRef? = node.firstRef?.map numbering.number := by
    rw [nodes.instruction.eq]
    exact Instruction.firstRef?_bind_ref ..
  have changed : nodeRight.toInstruction.mutatedArgument? rules =
      (node.toInstruction.mutatedArgument? rules).map numbering.number := by
    rw [nodes.instruction.eq]
    exact Instruction.mutatedArgument?_bind_ref ..
  rw [Storage.sharedArgument?, Storage.sharedArgument?, Node.isView_congr op, first, changed]
  cases node.isView rules submodules with
  | error cause => rfl
  | ok isView =>
      cases isView with
      | true => rfl
      | false => rfl

/-- Storage is found for corresponding nodes on both sides or on neither. -/
theorem place {left right : Storage} (storages : numbering.StoragePair left right)
    (nodes : numbering.NodePair node nodeRight) :
    Outcome.Matches numbering.StoragePair (Storage.place rules submodules left node)
      (Storage.place rules submodules right nodeRight) := by
  have op : nodeRight.op = node.op := nodes.instruction.op_eq
  rw [Storage.place, Storage.place, op, nodes.id, sharedArgument? nodes]
  split
  · cases found : Storage.sharedArgument? rules submodules node with
    | error cause => exact .error
    | ok shared =>
        cases shared with
        | none => exact .ok (storages.allot nodes.isKnown)
        | some target =>
            have isInput := Node.mem_inputs_of_placement (Storage.sharedArgument?_eq_ok found).symm
            exact .ok (storages.share nodes.isKnown (nodes.instruction.reads target isInput))
  · exact .ok (storages.pin nodes.isKnown)

theorem placeAll {lefts rights : List Node} {left right : Storage}
    (nodes : List.Forall₂ numbering.NodePair lefts rights)
    (storages : numbering.StoragePair left right) :
    Outcome.Matches numbering.StoragePair (lefts.foldlM (Storage.place rules submodules) left)
      (rights.foldlM (Storage.place rules submodules) right) := by
  induction nodes generalizing left right with
  | nil => exact .ok storages
  | cons here _ ih =>
      rw [List.foldlM_cons, List.foldlM_cons]
      exact (place storages here).bind fun _ _ next => ih next

end Analysis

/-! ### Plans -/

/-- A plan with the other numbers. -/
def renumberPlan (numbering : Numbering) (plan : ReusePlan) : ReusePlan :=
  { plan with kwargs := plan.kwargs.bind numbering.image }

theorem renumberPlan_insert (numbering : Numbering) (kwargs : Kwargs NodeId) (keyword : String)
    (argument : Arg) (manner : Manner) :
    numbering.renumberPlan ⟨kwargs.insert keyword argument, manner⟩ =
      ⟨(kwargs.bind numbering.image).insert keyword (argument.bind numbering.image), manner⟩ := by
  rw [renumberPlan, Kwargs.bind_insert]

section Plans

variable {left right : Graph} {storage storageRight : Storage}
variable {instruction instructionRight : Instruction}

theorem GraphPair.shapeOf? (graphs : numbering.GraphPair left right) {id : NodeId}
    (isKnown : id ∈ numbering.known) :
    right.shapeOf? (numbering.number id) = left.shapeOf? id := by
  have found := graphs.find? isKnown
  unfold Graph.shapeOf?
  generalize left.find? id = first, right.find? (numbering.number id) = second at found
  cases found with
  | none => rfl
  | @some node nodeRight nodes =>
      have info : nodeRight.info = node.info := nodes.instruction.info_eq
      show (nodeRight.info >>= ValueInfo.shape) = node.info >>= ValueInfo.shape
      rw [info]

variable (graphs : numbering.GraphPair left right)
variable (storages : numbering.StoragePair storage storageRight)

include graphs storages

theorem admitsSecond {first : NodeId} {second secondRight : Arg}
    (isKnown : first ∈ numbering.known) (seconds : numbering.ArgPair second secondRight)
    (shape : List Nat) :
    ReusePlan.admitsSecond right storageRight shape (numbering.number first) secondRight =
      ReusePlan.admitsSecond left storage shape first second := by
  rw [seconds.eq]
  cases second with
  | literal value => rfl
  | tuple items => rfl
  | ref target =>
      have targetKnown := seconds.reads target (List.mem_singleton_self _)
      show (!storageRight.together _ (numbering.number target) &&
        right.shapeOf? (numbering.number target) == some shape) = _
      rw [storages.together isKnown targetKnown, graphs.shapeOf? targetKnown]
      rfl

theorem admitsBinary {first firstRight second secondRight : Arg}
    (firsts : numbering.ArgPair first firstRight) (seconds : numbering.ArgPair second secondRight)
    (info : Option ValueInfo) :
    ReusePlan.admitsBinary right storageRight info firstRight secondRight =
      ReusePlan.admitsBinary left storage info first second := by
  rw [firsts.eq]
  cases first with
  | literal value => rfl
  | tuple items => rfl
  | ref id =>
      have isKnown := firsts.reads id (List.mem_singleton_self _)
      show ReusePlan.admitsBinary right storageRight info (.ref (numbering.number id))
        secondRight = _
      unfold ReusePlan.admitsBinary
      cases info.bind ValueInfo.shape with
      | none => rfl
      | some shape =>
          dsimp only
          rw [storages.isFree isKnown, graphs.shapeOf? isKnown,
            admitsSecond graphs storages isKnown seconds]

omit graphs in
theorem unary? {rules : Rules} {accepts : Signatures} {function : FunctionPath}
    {argument argumentRight : Arg} (arguments : numbering.ArgPair argument argumentRight)
    (kwargs : Kwargs NodeId) :
    ReusePlan.unary? rules accepts storageRight function argumentRight
        (kwargs.bind numbering.image) =
      (ReusePlan.unary? rules accepts storage function argument kwargs).map
        numbering.renumberPlan := by
  rw [arguments.eq]
  cases argument with
  | literal value => rfl
  | tuple items => rfl
  | ref id =>
      have isKnown := arguments.reads id (List.mem_singleton_self _)
      show ReusePlan.unary? rules accepts storageRight function (.ref (numbering.number id)) _ = _
      unfold ReusePlan.unary?
      dsimp only
      rw [storages.isFree isKnown]
      split
      · split
        · exact congrArg some
            (renumberPlan_insert numbering kwargs _ (.literal (.bool true)) _).symm
        · split
          · exact congrArg some (renumberPlan_insert numbering kwargs _ (.ref id) _).symm
          · rfl
      · rfl

theorem binary? {rules : Rules} {accepts : Signatures} {function : FunctionPath}
    (instructions : numbering.InstructionPair instruction instructionRight)
    (kwargs : Kwargs NodeId) :
    ReusePlan.binary? rules accepts right storageRight function instructionRight
        (kwargs.bind numbering.image) =
      (ReusePlan.binary? rules accepts left storage function instruction kwargs).map
        numbering.renumberPlan := by
  have arguments := instructions.args
  have info := instructions.info_eq
  unfold ReusePlan.binary?
  generalize instruction.args = args, instructionRight.args = argsRight at arguments
  match arguments with
  | .nil => rfl
  | .cons _ .nil => rfl
  | .cons _ (.cons _ (.cons _ _)) => rfl
  | .cons firsts (.cons seconds .nil) =>
      dsimp only
      rw [Kwargs.isEmpty_bind, info, admitsBinary graphs storages firsts seconds]
      split
      · rw [firsts.eq]
        exact congrArg some (renumberPlan_insert ..).symm
      · rfl

/-- A call gets the same plan on both sides. -/
theorem plan {rules : Rules} {accepts : Signatures} {function : FunctionPath}
    (instructions : numbering.InstructionPair instruction instructionRight) :
    ReusePlan.of? rules accepts right storageRight function instructionRight =
      (ReusePlan.of? rules accepts left storage function instruction).map
        numbering.renumberPlan := by
  have kwargs : instructionRight.kwargs.erase Rules.inplaceKeyword =
      Kwargs.bind numbering.image (instruction.kwargs.erase Rules.inplaceKeyword) := by
    rw [instructions.eq]
    exact (Kwargs.bind_erase ..).symm
  have only := ReusePlan.onlyArgument?_bind numbering.image instruction.args
    (instruction.kwargs.erase Rules.inplaceKeyword)
  have args : instructionRight.args = Argument.bindAll numbering.image instruction.args := by
    rw [instructions.eq]
    rfl
  unfold ReusePlan.of?
  split
  · rfl
  · dsimp only
    rw [kwargs, args, only]
    cases found : ReusePlan.onlyArgument? instruction.args
        (instruction.kwargs.erase Rules.inplaceKeyword) with
    | none => exact binary? graphs storages instructions _
    | some argument =>
        refine unary? storages ⟨fun id isRef => instructions.reads id ?_, rfl⟩ _
        exact ReusePlan.mem_inputs_of_onlyArgument? found isRef

end Plans

theorem apply {instruction instructionRight : Instruction} {plan : ReusePlan}
    (instructions : numbering.InstructionPair instruction instructionRight)
    (reads : ∀ input ∈ (plan.apply instruction).inputs, input ∈ instruction.inputs) :
    numbering.InstructionPair (plan.apply instruction)
      ((numbering.renumberPlan plan).apply instructionRight) := by
  refine ⟨fun input isInput => instructions.reads input (reads input isInput), ?_⟩
  rw [instructions.eq]
  rfl

/-! ### The walk -/

/-- Two walks that have changed corresponding calls in the same manner. -/
structure WalkPair (numbering : Numbering) (left right : ReuseWalk) : Prop where
  graphs : numbering.GraphPair left.graph right.graph
  storages : numbering.StoragePair left.storage right.storage
  manners : left.changes.map ReusedCall.manner = right.changes.map ReusedCall.manner

section Walk

variable {rules : Rules} {accepts : Signatures} {left right : ReuseWalk}
variable {node nodeRight : Node}

theorem WalkPair.change (walks : numbering.WalkPair left right)
    (nodes : numbering.NodePair node nodeRight) :
    ∃ larger : Numbering, larger.Extends numbering ∧
      larger.WalkPair (left.change rules accepts node) (right.change rules accepts nodeRight) := by
  have op : nodeRight.op = node.op := nodes.instruction.op_eq
  have unchanged : ∃ larger : Numbering, larger.Extends numbering ∧ larger.WalkPair left right :=
    ⟨numbering, .refl _, walks⟩
  unfold ReuseWalk.change
  rw [op]
  cases isOp : node.op with
  | placeholder | getAttr | callMethod | callModule | output => exact unchanged
  | callFunction function =>
      dsimp only
      rw [plan walks.graphs walks.storages nodes.instruction]
      cases found : ReusePlan.of? rules accepts left.graph left.storage function
          node.toInstruction with
      | none => exact unchanged
      | some plan =>
          obtain ⟨operand, -, grants⟩ := ReusePlan.grants_of_of?_eq_some isOp found
          obtain ⟨larger, extension, graphs⟩ := walks.graphs.supersede nodes.isKnown
            (apply nodes.instruction grants.reads)
          refine ⟨larger, extension, ?_, walks.storages.mono extension, ?_⟩
          · rw [← nodes.id] at graphs
            exact graphs
          · dsimp only [Option.map_some]
            rw [List.map_append, List.map_append, walks.manners]
            rfl

theorem WalkPair.visit (walks : numbering.WalkPair left right) {id : NodeId}
    (isKnown : id ∈ numbering.known) :
    ∃ larger : Numbering, larger.Extends numbering ∧
      larger.WalkPair (left.visit rules accepts id)
        (right.visit rules accepts (numbering.number id)) := by
  have found := walks.graphs.find? isKnown
  unfold ReuseWalk.visit
  generalize left.graph.find? id = first, right.graph.find? (numbering.number id) = second at found
  cases found with
  | none => exact ⟨numbering, .refl _, walks⟩
  | @some node nodeRight nodes =>
      obtain ⟨larger, extension, changed⟩ := walks.change nodes
      refine ⟨larger, extension, changed.graphs, ?_, changed.manners⟩
      have reads : nodeRight.inputs = node.inputs.map numbering.number := by
        rw [nodes.instruction.eq]
        exact Instruction.inputs_bind_ref ..
      dsimp only
      rw [reads]
      exact (walks.storages.readAll nodes.instruction.reads).mono extension

/-- Visits of corresponding nodes keep the walks alike. -/
theorem WalkPair.run (walks : numbering.WalkPair left right) {ids : List NodeId}
    (areKnown : ∀ id ∈ ids, id ∈ numbering.known) :
    ∃ larger : Numbering, larger.Extends numbering ∧
      larger.WalkPair (ids.foldl (ReuseWalk.visit rules accepts) left)
        ((ids.map numbering.number).foldl (ReuseWalk.visit rules accepts) right) := by
  induction ids generalizing numbering left right with
  | nil => exact ⟨numbering, .refl _, walks⟩
  | cons id rest ih =>
      obtain ⟨isKnown, others⟩ := List.forall_mem_cons.mp areKnown
      obtain ⟨larger, extension, visited⟩ := walks.visit isKnown
      obtain ⟨largest, further, finished⟩ := ih visited fun other isOther =>
        extension.subset (others other isOther)
      have numbers : rest.map larger.number = rest.map numbering.number :=
        List.map_congr_left fun other isOther => extension.agrees (others other isOther)
      rw [numbers] at finished
      exact ⟨largest, extension.trans further, finished⟩

end Walk

end Numbering

theorem ReusedCall.countAll_congr {calls callsRight : List ReusedCall}
    (manners : calls.map ReusedCall.manner = callsRight.map ReusedCall.manner) (tally : Tally) :
    countAll calls tally = countAll callsRight tally := by
  have counted : ∀ calls : List ReusedCall, countAll calls tally =
      (calls.map ReusedCall.manner).foldl
        (fun tally manner => tally.increment .optimizations manner.word) tally := by
    intro calls
    rw [countAll, List.foldl_map]
  rw [counted, counted, manners]

/-- Storage reuse does not depend on numbers and names. -/
theorem reuseStorage_renumbered {left right : Program} {numbering : Numbering}
    (graphs : numbering.GraphPair left.graph right.graph)
    (submodules : right.submodules = left.submodules) (wellFormed : left.graph.WellFormed)
    (wellFormedRight : right.graph.WellFormed) (rules : Rules) (accepts : Signatures) :
    Outcome.Matches
      (fun reused reusedRight => reused.1.Renumbered reusedRight.1 ∧
        reused.2.map ReusedCall.manner = reusedRight.2.map ReusedCall.manner)
      (reuseStorage rules accepts left) (reuseStorage rules accepts right) := by
  have analyses := @Numbering.placeAll numbering rules left.submodules _ _ {} {} graphs.nodes
    (.empty _)
  simp only [reuseStorage, reuseInPlace_eq wellFormed, reuseInPlace_eq wellFormedRight,
    Storage.ofProgram, submodules]
  generalize left.graph.nodes.foldlM (Storage.place rules left.submodules) {} = first,
    right.graph.nodes.foldlM (Storage.place rules left.submodules) {} = second at analyses
  cases analyses with
  | error => exact .error
  | ok storages =>
      have areKnown : ∀ id ∈ left.graph.ids.reverse, id ∈ numbering.known := by
        intro id member
        obtain ⟨node, isNode, rfl⟩ := List.mem_map.mp (List.mem_reverse.mp member)
        exact graphs.isKnown_of_mem isNode
      obtain ⟨larger, -, walks⟩ := @Numbering.WalkPair.run numbering rules accepts
        ⟨left.graph, _, []⟩ ⟨right.graph, _, []⟩ ⟨graphs, storages, rfl⟩ _ areKnown
      rw [List.map_reverse, ← graphs.ids] at walks
      exact .ok ⟨walks.graphs.renumbered, walks.manners⟩

end OpGraph
