import OpGraph.Proofs.PassValidity
import OpGraph.Proofs.ReuseCorrespondence

/-!
# Storage reuse introduces no stale reads

The owners of the storage of a graph are found again after storage has been reused.  Values that had
different owners may have the same one now, but then the storage of one of them is read no more
(`Storage.Merges`).  So what a changed call overwrites is never read again under a name that had a
value before the call.
-/

namespace OpGraph

/-! ### Owners -/

/-- A node that is no call puts its value into a cell of its own. -/
theorem Node.placement_eq_fresh {node : Node} (noCall : node.op.isCall = false) (rules : Rules)
    (submodules : Forest) : node.placement rules submodules = .fresh := by
  have isView : node.isView rules submodules = .ok false := by rw [isView, noCall]; rfl
  have unchanged : node.toInstruction.mutatedArgument? rules = none := by
    rw [Instruction.mutatedArgument?, noCall]
    rfl
  rw [placement, isView, writePlacement, unchanged]

namespace Storage

variable {rules : Rules} {submodules : Forest} {storage next : Storage} {nodes : List Node}
variable {node : Node}

/-- The analysis of a node adds its owner: that of the value whose storage it shares, or itself. -/
theorem owner_place (success : place rules submodules storage node = .ok next) :
    next.owner = storage.owner.insert node.id
      (((node.placement rules submodules).target?.bind (storage.owner[·]?)).getD node.id) := by
  unfold place at success
  split at success
  · obtain ⟨shared, sharing, rest⟩ := Outcome.bind_eq_ok.mp success
    obtain rfl := sharedArgument?_eq_ok sharing
    cases target : (node.placement rules submodules).target? with
    | none =>
        rw [target] at rest
        rw [← Except.ok.inj rest]
        rfl
    | some base =>
        rw [target] at rest
        rw [← Except.ok.inj rest, share, Option.bind_some]
        cases storage.owner[base]? with
        | none => rfl
        | some owner => rfl
  · next noCall =>
    rw [← Except.ok.inj success,
      Node.placement_eq_fresh (Bool.eq_false_of_not_eq_true noCall) rules submodules]
    rfl

/-- What the analysis of some nodes finds out. -/
structure Describes (rules : Rules) (submodules : Forest) (storage : Storage) (nodes : List Node) :
    Prop where
  /-- A node that shares the storage of another one has its owner. -/
  shared : ∀ before node after target, nodes = before ++ node :: after →
    (node.placement rules submodules).target? = some target →
      storage.owner[node.id]? = storage.owner[target]?
  /-- Any other node owns the storage of its value. -/
  fresh : ∀ before node after, nodes = before ++ node :: after →
    (node.placement rules submodules).target? = none → storage.owner[node.id]? = some node.id
  /-- Nodes are owned by themselves or by earlier ones. -/
  inside : ∀ before after, nodes = before ++ after → ∀ id ∈ before.map Node.id,
    ∃ owner ∈ before.map Node.id, storage.owner[id]? = some owner
  /-- The storage of nodes other than calls is in use. -/
  pinned : ∀ node ∈ nodes, node.op.isCall = false → storage.inUse.contains node.id = true

/-- The owner of a node in the middle of a list. -/
theorem owner_of_split {before after : List Node}
    (success : (before ++ node :: after).foldlM (place rules submodules) {} = .ok storage)
    (distinct : ((before ++ node :: after).map Node.id).Nodup)
    (closed : Graph.Closed ∅ (before ++ node :: after)) :
    storage.owner[node.id]? = some
      (((node.placement rules submodules).target?.bind (storage.owner[·]?)).getD node.id) := by
  rw [List.foldlM_append] at success
  obtain ⟨first, -, success⟩ := Outcome.bind_eq_ok.mp success
  rw [List.foldlM_cons] at success
  obtain ⟨second, placed, later⟩ := Outcome.bind_eq_ok.mp success
  obtain ⟨kept, -⟩ := foldlM_place_keeps later
  rw [List.map_append, List.map_cons, List.nodup_append, List.nodup_cons] at distinct
  obtain ⟨-, ⟨absent, -⟩, apart⟩ := distinct
  rw [kept node.id absent, owner_place placed, Std.ExtTreeMap.getElem?_insert_self]
  cases target : (node.placement rules submodules).target? with
  | none => rfl
  | some base =>
      have isEarlier := closed.mem_before (Node.mem_inputs_of_placement target)
      have different : base ≠ node.id :=
        fun same => apart base isEarlier node.id List.mem_cons_self same
      have notLater : base ∉ after.map Node.id :=
        fun isLater => apart base isEarlier base (List.mem_cons_of_mem _ isLater) rfl
      rw [Option.bind_some, Option.bind_some, kept base notLater,
        (place_keeps placed).1 base different]

theorem inUse_of_split {before after : List Node} (noCall : node.op.isCall = false)
    (success : (before ++ node :: after).foldlM (place rules submodules) {} = .ok storage) :
    storage.inUse.contains node.id = true := by
  rw [List.foldlM_append] at success
  obtain ⟨first, -, success⟩ := Outcome.bind_eq_ok.mp success
  rw [List.foldlM_cons] at success
  obtain ⟨second, placed, later⟩ := Outcome.bind_eq_ok.mp success
  refine (foldlM_place_keeps later).2 node.id ?_
  rw [place, noCall] at placed
  rw [← Except.ok.inj placed]
  exact Std.ExtTreeSet.contains_insert_self

/-- The analysis of a valid graph describes its nodes. -/
theorem describes (success : nodes.foldlM (place rules submodules) {} = .ok storage)
    (distinct : (nodes.map Node.id).Nodup) (closed : Graph.Closed ∅ nodes) :
    Describes rules submodules storage nodes := by
  have fresh : ∀ before node after, nodes = before ++ node :: after →
      (node.placement rules submodules).target? = none →
        storage.owner[node.id]? = some node.id := by
    rintro before node after rfl alone
    rw [owner_of_split success distinct closed, alone]
    rfl
  have placed : ∀ before node after target, nodes = before ++ node :: after →
      (node.placement rules submodules).target? = some target →
        storage.owner[node.id]? = some (storage.owner[target]?.getD node.id) := by
    rintro before node after target rfl sharing
    rw [owner_of_split success distinct closed, sharing, Option.bind_some]
  have inside : ∀ before after, nodes = before ++ after → ∀ id ∈ before.map Node.id,
      ∃ owner ∈ before.map Node.id, storage.owner[id]? = some owner := by
    intro before
    induction before using List.reverseRecOn with
    | nil => exact fun _ _ id impossible => absurd impossible List.not_mem_nil
    | append_singleton before node ih =>
        intro after split id isEarlier
        rw [List.append_assoc, List.singleton_append] at split
        rw [List.map_append, List.mem_append] at isEarlier
        rcases isEarlier with isEarlier | isNode
        · obtain ⟨owner, isOwner, found⟩ := ih _ split id isEarlier
          exact ⟨owner, by simp [isOwner], found⟩
        · obtain rfl := List.mem_singleton.mp isNode
          cases target : (node.placement rules submodules).target? with
          | none => exact ⟨node.id, by simp, fresh before node after split target⟩
          | some base =>
              have isBase := (split ▸ closed).mem_before (Node.mem_inputs_of_placement target)
              obtain ⟨owner, isOwner, found⟩ := ih _ split base isBase
              refine ⟨owner, by simp [isOwner], ?_⟩
              rw [placed before node after base split target, found]
              rfl
  refine ⟨?_, fresh, inside, fun node isNode noCall => ?_⟩
  · intro before node after target split sharing
    have isTarget := (split ▸ closed).mem_before (Node.mem_inputs_of_placement sharing)
    obtain ⟨owner, -, found⟩ := inside before _ split target isTarget
    rw [placed before node after target split sharing, found]
    rfl
  · obtain ⟨before, after, rfl⟩ := List.append_of_mem isNode
    exact inUse_of_split noCall success

theorem together_eq_true {left right : NodeId} (same : storage.together left right = true) :
    ∃ owner, storage.owner[left]? = some owner ∧ storage.owner[right]? = some owner := by
  unfold together at same
  split at same
  · next owner other isOwner isOther =>
    obtain rfl : owner = other := by simpa using same
    exact ⟨owner, isOwner, isOther⟩
  · cases same

/-- What shares storage that is free is a call. -/
theorem Describes.isCall_of_together (describes : Describes rules submodules storage nodes)
    {id : NodeId} (free : storage.isFree id = true) (isNode : node ∈ nodes)
    (same : storage.together node.id id = true) : node.op.isCall = true := by
  obtain ⟨owner, isOwner, isOther⟩ := together_eq_true same
  by_contra noCall
  have leaf := Bool.eq_false_of_not_eq_true noCall
  have inUse := describes.pinned node isNode leaf
  obtain ⟨before, after, split⟩ := List.append_of_mem isNode
  have alone : (node.placement rules submodules).target? = none := by
    rw [Node.placement_eq_fresh leaf]
    rfl
  obtain rfl := Option.some.inj (isOwner.symm.trans (describes.fresh before node after split alone))
  rw [isFree, isOther] at free
  simp [inUse] at free

end Storage

/-! ### Owners after storage has been reused -/

section Merging

variable {rules : Rules} {submodules : Forest} {storage reused : Storage}
variable {rename : NodeId → NodeId} {sources news before later : List Node} {source new : Node}

/-- The value of a node goes where it went before, or over a value that is not read afterwards
instead of into a cell of its own. -/
theorem Node.Became.placement (became : source.Became rules storage rename later new)
    (submodules : Forest) :
    new.placement rules submodules = (source.placement rules submodules).map rename ∨
      source.placement rules submodules = .fresh ∧ ∃ operand ∈ source.inputs,
        new.placement rules submodules = .into (rename operand) ∧ storage.Unread later operand := by
  cases became with
  | kept => exact Or.inl (Node.placement_bind_ref rename rfl ..)
  | @changed plan operand name _ grants idle =>
      -- The changed call before its references are renamed.
      let applied : Node := { source with toInstruction := plan.apply source.toInstruction }
      rw [@Node.placement_bind_ref applied _ rename rfl]
      have placed := @ReusePlan.Grants.placement rules source applied plan operand grants submodules
        rfl
      refine placed.imp (congrArg _) ?_
      rintro ⟨fresh, into⟩
      exact ⟨fresh, operand, grants.isInput, congrArg _ into, idle.unread⟩

/-- The value of a node goes into a cell of its own, or shares the storage of a value that it shared
before or that is not read afterwards. -/
theorem Node.Became.target? (became : source.Became rules storage rename later new)
    (submodules : Forest) :
    (new.placement rules submodules).target? = none ∨
      ∃ target ∈ source.inputs, (new.placement rules submodules).target? = some (rename target) ∧
        ((source.placement rules submodules).target? = some target ∨
          storage.Unread later target) := by
  rcases became.placement submodules with same | ⟨-, operand, isInput, into, unread⟩
  · rw [same, Placement.target?_map]
    cases shared : (source.placement rules submodules).target? with
    | none => exact Or.inl rfl
    | some target =>
        exact Or.inr ⟨target, Node.mem_inputs_of_placement shared, rfl, Or.inl rfl⟩
  · rw [into]
    exact Or.inr ⟨operand, isInput, rfl, Or.inr unread⟩

theorem Storage.Unread.of_cons {id : NodeId} (unread : storage.Unread (source :: later) id) :
    storage.Unread later id :=
  fun node isLater => unread node (List.mem_cons_of_mem _ isLater)

/-- Values that have the same owner now had the same owner before, or the storage of one of them is
not read by any of the nodes to come. -/
def Storage.Merges (storage reused : Storage) (rename : NodeId → NodeId)
    (before later : List Node) : Prop :=
  ∀ left ∈ before.map Node.id, ∀ right ∈ before.map Node.id,
    reused.owner[rename left]? = reused.owner[rename right]? →
      storage.owner[left]? = storage.owner[right]? ∨ storage.Unread later left ∨
        storage.Unread later right

namespace Storage.Merges

/-- A value that has the owner of a new node now had it before, or is read no more. -/
theorem last (merges : Storage.Merges storage reused rename before (source :: later))
    (describes : Storage.Describes rules submodules storage (before ++ source :: later))
    (closed : Graph.Closed ∅ (before ++ source :: later)) {front back : List Node}
    (describesNew : Storage.Describes rules submodules reused (front ++ new :: back))
    (ids : front.map Node.id = (before.map Node.id).map rename)
    (distinct : ((front ++ new :: back).map Node.id).Nodup)
    (became : source.Became rules storage rename later new) {left : NodeId}
    (isLeft : left ∈ before.map Node.id)
    (same : reused.owner[rename left]? = reused.owner[rename source.id]?) :
    storage.owner[left]? = storage.owner[source.id]? ∨ storage.Unread later left := by
  rw [← became.id_eq] at same
  rcases became.target? submodules with alone | ⟨target, isInput, isTarget, shared⟩
  · -- A new owner owns nothing that is older.
    have isFront : rename left ∈ front.map Node.id := ids ▸ List.mem_map_of_mem isLeft
    obtain ⟨owner, isOwner, found⟩ := describesNew.inside front _ rfl _ isFront
    rw [same, describesNew.fresh front new back rfl alone] at found
    obtain rfl := Option.some.inj found
    rw [List.map_append, List.map_cons, List.nodup_append] at distinct
    exact absurd rfl (distinct.2.2 new.id isOwner new.id List.mem_cons_self)
  · rw [describesNew.shared front new back _ rfl isTarget] at same
    rcases merges left isLeft target (closed.mem_before isInput) same with
      sameOwner | unread | unread
    · rcases shared with isShared | unread
      · left
        rw [sameOwner, describes.shared before source later target rfl isShared]
      · right
        intro node isLater input isRead
        rw [sameOwner]
        exact unread node isLater input isRead
    · exact Or.inr unread.of_cons
    · exact absurd rfl (unread source List.mem_cons_self target isInput)

theorem step (merges : Storage.Merges storage reused rename before (source :: later))
    (last : ∀ left ∈ before.map Node.id,
      reused.owner[rename left]? = reused.owner[rename source.id]? →
        storage.owner[left]? = storage.owner[source.id]? ∨ storage.Unread later left) :
    Storage.Merges storage reused rename (before ++ [source]) later := by
  intro left isLeft right isRight same
  rw [List.map_append, List.mem_append, List.map_singleton, List.mem_singleton] at isLeft isRight
  rcases isLeft with isLeft | rfl
  · rcases isRight with isRight | rfl
    · exact (merges left isLeft right isRight same).imp_right
        (Or.imp Storage.Unread.of_cons Storage.Unread.of_cons)
    · exact (last left isLeft same).imp_right Or.inl
  · rcases isRight with isRight | rfl
    · exact (last right isRight same.symm).imp Eq.symm Or.inr
    · exact Or.inl rfl

/-- A value that a later node reads does not lie in storage that is read no more. -/
theorem owner_ne (merges : Storage.Merges storage reused rename before (source :: later))
    {operand id : NodeId} (isInput : operand ∈ source.inputs)
    (isOperand : operand ∈ before.map Node.id) (unread : storage.Unread later operand)
    (isOlder : id ∈ before.map Node.id) {reader : Node} (isLater : reader ∈ later)
    (reads : id ∈ reader.inputs) : reused.owner[rename id]? ≠ reused.owner[rename operand]? := by
  intro same
  rcases merges id isOlder operand isOperand same with sameOwner | gone | gone
  · exact unread reader isLater id reads sameOwner
  · exact gone reader (List.mem_cons_of_mem _ isLater) id reads rfl
  · exact gone source List.mem_cons_self operand isInput rfl

end Storage.Merges

/-- At every position, what has been merged so far is described by the nodes to come. -/
theorem Graph.Became.merges (became : Graph.Became rules storage rename sources news)
    (describes : Storage.Describes rules submodules storage sources)
    (closed : Graph.Closed ∅ sources)
    (describesNew : Storage.Describes rules submodules reused news)
    (distinct : (news.map Node.id).Nodup) (split : sources = before ++ later) :
    Storage.Merges storage reused rename before later := by
  induction before using List.reverseRecOn generalizing later with
  | nil => exact fun left impossible => absurd impossible List.not_mem_nil
  | append_singleton before source ih =>
      rw [List.append_assoc, List.singleton_append] at split
      subst split
      obtain ⟨front, new, back, rfl, -, ids, here, -⟩ := became.split
      have merges := ih rfl
      exact merges.step fun left isLeft same =>
        merges.last describes closed describesNew ids distinct here isLeft same

/-- What a node behind a changed call reads, and what is older than the call, does not lie in the
storage of an operand of the call that is not read any more. -/
theorem Graph.Became.owner_ne (became : Graph.Became rules storage rename sources news)
    (merges : Storage.Merges storage reused rename before (source :: later))
    (closed : Graph.Closed ∅ sources) (distinct : (news.map Node.id).Nodup)
    (split : sources = before ++ source :: later) {front back : List Node}
    (ids : front.map Node.id = (before.map Node.id).map rename)
    (behind : Graph.Became rules storage rename later back) {operand : NodeId}
    (isInput : operand ∈ source.inputs) (unread : storage.Unread later operand)
    {node reader : Node} (isOlder : node ∈ front) (isLater : reader ∈ back)
    (reads : node.id ∈ reader.inputs) :
    reused.owner[node.id]? ≠ reused.owner[rename operand]? := by
  have isFront : node.id ∈ front.map Node.id := List.mem_map_of_mem isOlder
  rw [ids] at isFront
  obtain ⟨older, isOlderId, olderName⟩ := List.mem_map.mp isFront
  obtain ⟨_, readerSource, _, laterSplit, readerHere⟩ := behind.exists_of_mem isLater
  have isReader : readerSource ∈ later :=
    laterSplit ▸ List.mem_append_right _ List.mem_cons_self
  obtain ⟨target, isTarget, targetName⟩ := readerHere.exists_of_mem_inputs reads
  -- The reader and the older node mean the same node of the source.
  have sameTarget : target = older := by
    refine became.rename_inj distinct ?_ ?_ (targetName.trans olderName.symm)
    · refine closed.mem_ids ?_ isTarget
      rw [split]
      exact List.mem_append_right _ (List.mem_cons_of_mem _ isReader)
    · rw [split, List.map_append]
      exact List.mem_append_left _ isOlderId
  rw [← olderName]
  exact merges.owner_ne isInput ((split ▸ closed).mem_before isInput) unread isOlderId isReader
    (sameTarget ▸ isTarget)

end Merging

/-! ### The analysis of the changed graph -/

theorem Storage.exists_sharedArgument? {rules : Rules} {submodules : Forest} {node : Node}
    {isView : Bool} (viewed : node.isView rules submodules = .ok isView) :
    ∃ shared, sharedArgument? rules submodules node = .ok shared := by
  cases isView with
  | true => exact ⟨node.firstRef?, Outcome.bind_eq_ok.mpr ⟨true, viewed, rfl⟩⟩
  | false => exact ⟨_, Outcome.bind_eq_ok.mpr ⟨false, viewed, rfl⟩⟩

/-- Whether the storage of a node can be found depends on its operation only. -/
theorem Storage.exists_place {rules : Rules} {submodules : Forest} {storage next : Storage}
    {node other : Node} (op : other.op = node.op)
    (success : place rules submodules storage node = .ok next) (state : Storage) :
    ∃ later, place rules submodules state other = .ok later := by
  unfold place at success ⊢
  rw [op]
  split at success
  · next isCall =>
    obtain ⟨shared, sharing, -⟩ := Outcome.bind_eq_ok.mp success
    obtain ⟨isView, viewed, -⟩ := Outcome.bind_eq_ok.mp sharing
    obtain ⟨shared, sharing⟩ := exists_sharedArgument? ((Node.isView_congr op ..).trans viewed)
    rw [if_pos isCall]
    cases shared with
    | none => exact ⟨_, Outcome.bind_eq_ok.mpr ⟨none, sharing, rfl⟩⟩
    | some target => exact ⟨_, Outcome.bind_eq_ok.mpr ⟨some target, sharing, rfl⟩⟩
  · next noCall =>
    rw [if_neg noCall]
    exact ⟨_, rfl⟩

/-- The storage of a changed graph can be found. -/
theorem Graph.Became.exists_analysis {rules : Rules} {submodules : Forest}
    {storage first last : Storage} {rename : NodeId → NodeId} {sources news : List Node}
    (became : Graph.Became rules storage rename sources news)
    (success : sources.foldlM (Storage.place rules submodules) first = .ok last) (state : Storage) :
    ∃ result, news.foldlM (Storage.place rules submodules) state = .ok result := by
  induction became generalizing first state with
  | nil => exact ⟨state, rfl⟩
  | cons here _ ih =>
      rw [List.foldlM_cons] at success
      obtain ⟨middle, placed, remaining⟩ := Outcome.bind_eq_ok.mp success
      obtain ⟨next, placedNew⟩ := Storage.exists_place here.op_eq placed state
      obtain ⟨result, finished⟩ := ih remaining next
      refine ⟨result, ?_⟩
      rw [List.foldlM_cons]
      exact Outcome.bind_eq_ok.mpr ⟨next, placedNew, finished⟩

theorem ReusePlan.onlyArgument?_bind (image : NodeId → Arg) (args : List Arg)
    (kwargs : Kwargs NodeId) :
    onlyArgument? (Argument.bindAll image args) (kwargs.bind image) =
      (onlyArgument? args kwargs).map (Argument.bind image) := by
  unfold onlyArgument?
  rw [Kwargs.values_bind, Argument.bindAll_eq_map]
  generalize kwargs.values = others
  rcases args with _ | ⟨first, _ | ⟨second, rest⟩⟩ <;>
    rcases others with _ | ⟨only, _ | ⟨another, more⟩⟩ <;> rfl

theorem Instruction.overwritten?_bind_ref (rename : NodeId → NodeId) (instruction : Instruction) :
    (instruction.bind fun id => .ref (rename id)).overwritten? =
      instruction.overwritten?.map rename := by
  have kwargs : ∀ keyword, (instruction.bind fun id => .ref (rename id)).kwargs[keyword]? =
      instruction.kwargs[keyword]?.map (Argument.bind fun id => .ref (rename id)) :=
    fun keyword => Kwargs.getElem?_bind ..
  have refs : ∀ argument : Option Arg,
      (argument.map (Argument.bind fun id => .ref (rename id))).bind Argument.asRef? =
        (argument.bind Argument.asRef?).map rename := by
    intro argument
    cases argument with
    | none => rfl
    | some argument => exact Argument.asRef?_bind_ref rename argument
  rw [overwritten?, overwritten?, kwargs, kwargs, refs]
  cases instruction.kwargs[Rules.inplaceKeyword]? with
  | none => rfl
  | some flag =>
      dsimp only [Option.map_some]
      rw [← refs, ← ReusePlan.onlyArgument?_bind, Kwargs.bind_erase]
      rfl

section Positions

variable {α : Type} {front back : List α} {item middle : α} {position : Nat}

theorem mem_of_getElem?_lt (found : (front ++ middle :: back)[position]? = some item)
    (isFront : position < front.length) : item ∈ front := by
  rw [List.getElem?_append_left isFront] at found
  exact List.mem_of_getElem? found

theorem mem_of_getElem?_gt (found : (front ++ middle :: back)[position]? = some item)
    (isBack : front.length < position) : item ∈ back := by
  obtain ⟨distance, rfl⟩ := Nat.exists_eq_add_of_lt isBack
  rw [List.getElem?_append_right (by omega), Nat.add_assoc, Nat.add_sub_cancel_left,
    List.getElem?_cons_succ] at found
  exact List.mem_of_getElem? found

end Positions

/-- The call at a position of a changed graph is told to use the storage of an older value.  In the
source, that storage is one of calls only.  In the changed graph, no node behind the call reads a
value older than the call that lies in that storage. -/
structure Storage.Overwrites (storage reused : Storage) (sources news : List Node)
    (position : Nat) (call : Node) (place : Nat) (original written : Node) : Prop where
  older : place < position
  wasThere : sources[place]? = some original
  isThere : news[place]? = some written
  told : call.toInstruction.overwritten? = some written.id
  unobserved : ∀ other ∈ sources,
    storage.together other.id original.id = true → other.op.isCall = true
  unread : ∀ (before after : Nat) (node reader : Node), before < position → position < after →
    news[before]? = some node → news[after]? = some reader →
      node.id ∈ reader.inputs → reused.together node.id written.id = false

/-- Storage reuse keeps the number of nodes, and at every position the node that was there, under
the names `rename`, or puts a call under a new identity there that overwrites storage which is not
read any more. -/
theorem storage_reuse_introduces_no_stale_reads {rules : Rules} {accepts : Signatures}
    {program : Program} {graph : Graph} {calls : List ReusedCall}
    (wellFormed : program.graph.WellFormed) (valid : program.graph.validate = .ok ())
    (success : reuseStorage rules accepts program = .ok (graph, calls)) :
    ∃ (storage reused : Storage) (rename : NodeId → NodeId),
      Storage.ofProgram rules program = .ok storage ∧
      Storage.ofProgram rules { program with graph } = .ok reused ∧
      graph.nodes.length = program.graph.nodes.length ∧
      ∀ (position : Nat) (source call : Node), program.graph.nodes[position]? = some source →
        graph.nodes[position]? = some call →
        (call.id = source.id →
          call.toInstruction = source.toInstruction.bind fun id => .ref (rename id)) ∧
        (call.id ≠ source.id → ∃ place original written,
          storage.Overwrites reused program.graph.nodes graph.nodes position call place original
            written) := by
  have validSource := Graph.validate_eq_ok_iff.mp valid
  obtain ⟨storage, rename, analysed, became⟩ := exists_became wellFormed validSource success
  obtain ⟨wellFormedNew, validNew⟩ := valid_reuseStorage wellFormed validSource success
  obtain ⟨reused, analysedNew⟩ := became.exists_analysis analysed {}
  have describes := Storage.describes analysed wellFormed.distinct validSource.closed
  have describesNew := Storage.describes analysedNew wellFormedNew.distinct validNew.closed
  refine ⟨storage, reused, rename, analysed, analysedNew, became.length_eq, ?_⟩
  intro position source call isSource isCall
  obtain ⟨before, later, split, rfl⟩ := Graph.exists_split_of_getElem? isSource
  obtain ⟨front, new, back, splitNew, length, ids, here, behind⟩ := (split ▸ became).split
  obtain rfl : new = call := by
    rw [splitNew, ← length] at isCall
    simpa using isCall
  refine ⟨fun same => ?_, fun different => ?_⟩
  · cases here with
    | kept => rfl
    | changed moved => exact absurd same moved
  · cases here with
    | kept => exact absurd rfl different
    | @changed plan operand name _ grants idle =>
        have merges := became.merges describes validSource.closed describesNew
          wellFormedNew.distinct split
        have isEarlier := (split ▸ validSource.closed).mem_before grants.isInput
        obtain ⟨original, isOriginal, rfl⟩ := List.mem_map.mp isEarlier
        obtain ⟨place, inRange, atPlace⟩ := List.mem_iff_getElem.mp isOriginal
        have isPlace : program.graph.nodes[place]? = some original := by
          rw [split, List.getElem?_append_left inRange, List.getElem?_eq_getElem inRange, atPlace]
        obtain ⟨written, isWritten, writtenId⟩ := became.exists_new isPlace
        refine ⟨place, original, written, inRange, isPlace, isWritten, ?_, ?_, ?_⟩
        · rw [Instruction.overwritten?_bind_ref, grants.overwrites, writtenId]
          rfl
        · exact fun other isNode same => describes.isCall_of_together idle.free isNode same
        · intro older last node reader isOlder isLater isNode isReader reads
          refine Bool.eq_false_of_not_eq_true fun together => ?_
          obtain ⟨owner, ownsNode, ownsWritten⟩ := Storage.together_eq_true together
          rw [splitNew] at isNode isReader
          refine became.owner_ne merges validSource.closed wellFormedNew.distinct split ids behind
            grants.isInput idle.unread (mem_of_getElem?_lt isNode (length ▸ isOlder))
            (mem_of_getElem?_gt isReader (length ▸ isLater)) reads ?_
          rw [← writtenId, ownsNode, ownsWritten]

/-- Three calls in a row that come to share one storage, and one that has its own. -/
def reusedChain : Program where
  graph :=
    { nodes :=
        [{ op := .placeholder, id := ⟨0⟩, name := "input" },
          { op := .callFunction ⟨"exp"⟩, args := [.ref ⟨0⟩], id := ⟨1⟩, name := "exp" },
          { op := .callFunction ⟨"log"⟩, args := [.ref ⟨1⟩], id := ⟨2⟩, name := "log" },
          { op := .callFunction ⟨"tanh"⟩, args := [.ref ⟨2⟩], id := ⟨3⟩, name := "tanh" },
          { op := .callFunction ⟨"sin"⟩, args := [.ref ⟨0⟩], id := ⟨4⟩, name := "sin" },
          { op := .output, args := [.ref ⟨3⟩, .ref ⟨4⟩], id := ⟨5⟩, name := "output" }]
      created := 6 }

theorem reusedChain_overwrites :
    ∃ graph calls call, reuseStorage {} (fun _ => true) reusedChain = .ok (graph, calls) ∧
      graph.nodes[3]? = some call ∧ call.id ≠ ⟨3⟩ ∧
        ∃ storage reused place original written, Storage.ofProgram {} reusedChain = .ok storage ∧
          Storage.ofProgram {} { reusedChain with graph } = .ok reused ∧
            storage.Overwrites reused reusedChain.graph.nodes graph.nodes 3 call place original
              written := by
  obtain ⟨graph, calls, call, success, isCall, different⟩ : ∃ graph calls call,
      reuseStorage {} (fun _ => true) reusedChain = .ok (graph, calls) ∧
        graph.nodes[3]? = some call ∧ call.id ≠ ⟨3⟩ := ⟨_, _, _, rfl, rfl, by decide⟩
  obtain ⟨storage, reused, rename, analysed, analysedNew, -, positions⟩ :=
    storage_reuse_introduces_no_stale_reads ⟨by decide, by decide⟩ (by decide) success
  obtain ⟨place, original, written, overwrites⟩ := (positions 3 _ call rfl isCall).2 different
  exact ⟨graph, calls, call, success, isCall, different, storage, reused, place, original, written,
    analysed, analysedNew, overwrites⟩

end OpGraph
