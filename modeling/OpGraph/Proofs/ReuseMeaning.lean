import OpGraph.Proofs.ReuseSteps

/-!
# Storage reuse keeps contents

A call that is told to write into the storage of an argument computes the same value as before, and
whoever read it before reads the same content now.  The overwritten storage belongs to no input, and
nothing reads it afterwards, since the analysis has found it free.

The analysis tracks the memory of the nodes that have not been visited (`Storage.Tracks`): two of
them share a cell only if they have the same owner.  The nodes behind a changed call run in
agreement before and after the change (`Memory.Agrees.run_redirect`).
-/

namespace OpGraph

/-- Calls put their values where the rules say; views are views. -/
def Interpretation.withViews {V : Type} (rules : Rules) (submodules : Forest) (layout : Nat → Nat)
    (compute : Op → Operands V → V) : Interpretation V :=
  { place := Node.placement rules submodules, layout, compute }

theorem Instruction.bind_single_ref (old new : NodeId) (instruction : Instruction) :
    instruction.bind (Argument.single old (.ref new)) =
      instruction.bind fun target => .ref (Function.update id old new target) := by
  refine bind_congr fun target _ => ?_
  rw [Argument.single, Function.update_apply]
  split
  · rfl
  · rfl

/-! ### Running the readers of a changed call -/

namespace Memory

variable {V : Type} {rules : Rules} {submodules : Forest} {layout : Nat → Nat}
variable {compute : Op → Operands V → V}

namespace Agrees

variable {known done : Set NodeId} {old new : NodeId} {link : Cell → Cell → Prop}
variable {left right : Memory V}

/-- One node, and the same node with its readings redirected, keep memories in agreement. -/
theorem exec_redirect {node : Node}
    (agrees : Agrees known (Function.update id old new) link left right)
    (inputs : ∀ input ∈ node.inputs, input ∈ known) (notOutput : node.op ≠ .output)
    (subset : known ⊆ done) (oldDone : old ∈ done) (newDone : new ∈ done)
    (absent : node.id ∉ done) (owned : left.Owned done) (ownedOther : right.Owned done)
    (outer : ∀ index, link (.outer index) (.outer index)) :
    ∃ l r link', left.exec (.withViews rules submodules layout compute) node = .ok l ∧
      right.exec (.withViews rules submodules layout compute) (node.redirect old (.ref new)) =
          .ok r ∧
        Agrees (insert node.id known) (Function.update id old new) link' l r ∧
          ∀ index, link' (.outer index) (.outer index) := by
  have renamed : (node.redirect old (.ref new)).toInstruction = _ :=
    Instruction.bind_single_ref old new node.toInstruction
  have inside : ∀ i ∈ known, Function.update id old new i ∈ done := by
    intro i isKnown
    rw [Function.update_apply]
    split
    · exact newDone
    · exact subset isKnown
  have fresh : ∀ i ∈ known, i ≠ node.id ∧ Function.update id old new i ≠ node.id := by
    intro i isKnown
    constructor
    · rintro rfl
      exact absent (subset isKnown)
    · intro same
      exact absent (same ▸ inside i isKnown)
  have unchanged : Function.update (Function.update id old new) node.id node.id =
      Function.update id old new := by
    have different : node.id ≠ old := fun same => absent (same ▸ oldDone)
    refine Function.update_eq_self_iff.mpr ?_
    rw [Function.update_of_ne different]
    rfl
  have called : ∃ l r link', left.call (.withViews rules submodules layout compute) node = .ok l ∧
      right.call (.withViews rules submodules layout compute) (node.redirect old (.ref new)) =
          .ok r ∧
        Agrees (insert node.id known)
            (Function.update (Function.update id old new) node.id node.id) link' l r ∧
          ∀ index, link (.outer index) (.outer index) → link' (.outer index) (.outer index) := by
    refine @Agrees.call V (.withViews rules submodules layout compute) _ _ _ _ _ agrees node
      (node.redirect old (.ref new)) (agrees.compute _ inputs (fun _ _ => rfl) ?_ ?_ rfl)
      (Node.placement_bind_ref _ renamed rules submodules) ?_ fresh ?_ ?_
    · rw [renamed]
      rfl
    · rw [renamed]
      exact congrArg Instruction.kwargs (Instruction.data_bind _ _)
    · exact fun target found => inputs target (Node.mem_inputs_of_placement found)
    · exact fun i _ placed => absent (owned i node.id placed)
    · exact fun i _ placed => absent (ownedOther _ node.id placed)
  cases isCall : node.op.isCall with
  | true =>
      obtain ⟨l, r, link', success, successOther, next, kept⟩ := called
      rw [unchanged] at next
      refine ⟨l, r, link', ?_, ?_, next, fun index => kept index (outer index)⟩
      · rw [exec_call isCall, success]
      · rw [@exec_call V _ right (node.redirect old (.ref new)) isCall, successOther]
  | false =>
      have entered := agrees.enter fresh (outer (layout left.leaves))
      rw [unchanged] at entered
      refine ⟨_, _, link, exec_leaf isCall notOutput, ?_, entered, outer⟩
      rw [@exec_leaf V _ right (node.redirect old (.ref new)) isCall notOutput, agrees.leaves]
      rfl

/-- The readers of a node run in agreement with the same readers of another one. -/
theorem run_redirect {past : Bool} {nodes : List Node}
    (agrees : Agrees known (Function.update id old new) link left right)
    (arranged : Graph.Arranged past nodes) (closed : Graph.Closed known nodes)
    (distinct : (nodes.map Node.id).Nodup) (absent : ∀ node ∈ nodes, node.id ∉ done)
    (subset : known ⊆ done) (oldDone : old ∈ done) (newDone : new ∈ done)
    (owned : left.Owned done) (ownedOther : right.Owned done)
    (outer : ∀ index, link (.outer index) (.outer index)) :
    ∃ l r outputs, nodes.foldlM (exec (.withViews rules submodules layout compute)) left = .ok l ∧
      (nodes.map (Node.redirect old (.ref new))).foldlM
          (exec (.withViews rules submodules layout compute)) right = .ok r ∧
        l.outputs = some outputs ∧ r.outputs = some outputs ∧
          ∀ index, l.content (.outer index) = r.content (.outer index) := by
  induction nodes generalizing past known done link left right with
  | nil => exact arranged.elim
  | cons node rest ih =>
      rw [List.map_cons, List.nodup_cons] at distinct
      by_cases isOutput : node.op = .output
      · obtain rfl := (Graph.arranged_cons_output isOutput).mp arranged
        obtain ⟨outputs, success, successOther⟩ :=
          agrees.read (fun target => .ref (Function.update id old new target)) closed.1
            fun _ _ => rfl
        rw [← Instruction.bind_single_ref] at successOther
        refine ⟨{ left with outputs := some outputs }, { right with outputs := some outputs },
          outputs, ?_, ?_, rfl, rfl, fun index => agrees.contents _ _ (outer index)⟩
        · rw [List.foldlM_cons]
          exact Outcome.bind_eq_ok.mpr ⟨_, exec_output isOutput success, rfl⟩
        · rw [List.map_cons, List.foldlM_cons]
          exact Outcome.bind_eq_ok.mpr ⟨_, exec_output isOutput successOther, rfl⟩
      · obtain ⟨l, r, link', success, successOther, next, outer'⟩ :=
          agrees.exec_redirect closed.1 isOutput subset oldDone newDone
            (absent node List.mem_cons_self) owned ownedOther outer
        have ownedNext := ownedOther.exec successOther
        have later : ∃ past, Graph.Arranged past rest := by
          rcases node.op.cases_isInner with isInput | isOutput' | inner
          · exact ⟨false, ((Graph.arranged_cons_input isInput).mp arranged).2⟩
          · exact absurd isOutput' isOutput
          · exact ⟨true, (Graph.arranged_cons_inner inner).mp arranged⟩
        obtain ⟨past', arrangedRest⟩ := later
        have absentRest := Graph.not_mem_insert_of_absent distinct.1
          fun other member => absent other (List.mem_cons_of_mem _ member)
        obtain ⟨l', r', outputs, ran, ranOther, results⟩ := ih next arrangedRest closed.2 distinct.2
          absentRest (Set.insert_subset_insert subset) (Set.mem_insert_of_mem _ oldDone)
          (Set.mem_insert_of_mem _ newDone) (owned.exec success) ownedNext outer'
        refine ⟨l', r', outputs, ?_, ?_, results⟩
        · rw [List.foldlM_cons]
          exact Outcome.bind_eq_ok.mpr ⟨l, success, ran⟩
        · rw [List.map_cons, List.foldlM_cons]
          exact Outcome.bind_eq_ok.mpr ⟨r, successOther, ranOther⟩

end Agrees

end Memory

/-! ### The analysis tracks the memory -/

namespace Storage

variable {V : Type} {rules : Rules} {submodules : Forest} {layout : Nat → Nat}
variable {compute : Op → Operands V → V}

/-- The owners of the nodes `done` tell where their values lie: in the cell of the owner, or in an
outer cell, if the owner is in use. -/
structure Tracks (storage : Storage) (done : Set NodeId) (memory : Memory V) : Prop where
  placed : ∀ id ∈ done, ∃ owner cell, storage.owner[id]? = some owner ∧
    memory.place id = some cell ∧
      (cell = .own owner ∨ storage.inUse.contains owner = true ∧ ∃ index, cell = .outer index)
  owned : memory.Owned done

theorem tracks_start (storage : Storage) (content : Cell → V) : storage.Tracks ∅ { content } :=
  ⟨fun _ impossible => impossible.elim, Memory.owned_start content⟩

/-- A new node is tracked when its owner is that of its cell. -/
theorem Tracks.extend {storage next : Storage} {done : Set NodeId} {memory later : Memory V}
    {id owner : NodeId} {cell : Cell} (tracks : storage.Tracks done memory) (absent : id ∉ done)
    (owners : next.owner = storage.owner.insert id owner)
    (inUse : ∀ other, storage.inUse.contains other = true → next.inUse.contains other = true)
    (place : later.place = (memory.put id cell).place)
    (holds : cell = .own owner ∨ next.inUse.contains owner = true ∧ ∃ index, cell = .outer index)
    (owned : later.Owned (insert id done)) : next.Tracks (insert id done) later := by
  refine ⟨fun other member => ?_, owned⟩
  by_cases same : other = id
  · subst same
    refine ⟨owner, cell, ?_, ?_, holds⟩
    · rw [owners, Std.ExtTreeMap.getElem?_insert_self]
    · rw [place, Memory.place_put_self]
  · obtain ⟨oldOwner, oldCell, known, found, old⟩ := tracks.placed other (member.resolve_left same)
    refine ⟨oldOwner, oldCell, ?_, ?_, old.imp_right fun outer => ⟨inUse _ outer.1, outer.2⟩⟩
    · rw [owners, Std.ExtTreeMap.getElem?_insert, if_neg, known]
      exact fun equal => same (Std.LawfulEqOrd.eq_of_compare equal).symm
    · rw [place, Memory.place_put_of_ne same, found]

theorem Tracks.exists_place {storage : Storage} {done : Set NodeId} {memory : Memory V}
    (tracks : storage.Tracks done memory) {id : NodeId} (isDone : id ∈ done) :
    ∃ cell, memory.place id = some cell := by
  obtain ⟨_, cell, _, found, _⟩ := tracks.placed id isDone
  exact ⟨cell, found⟩

/-- A new node that shares the cell of a tracked one is tracked. -/
theorem Tracks.share {storage : Storage} {done : Set NodeId} {memory later : Memory V}
    {id base : NodeId} {cell : Cell} (tracks : storage.Tracks done memory) (absent : id ∉ done)
    (isDone : base ∈ done) (found : memory.place base = some cell)
    (place : later.place = (memory.put id cell).place) (owned : later.Owned (insert id done)) :
    (storage.share id base).Tracks (insert id done) later := by
  obtain ⟨owner, other, known, placed, holds⟩ := tracks.placed base isDone
  obtain rfl := Option.some.inj (found.symm.trans placed)
  rw [Storage.share, known]
  exact tracks.extend absent rfl (fun _ used => used) place holds owned

/-- A free node lies in the cell of its owner, and no node in use lies there. -/
theorem Tracks.own_of_isFree {storage : Storage} {done : Set NodeId} {memory : Memory V}
    {id : NodeId} (tracks : storage.Tracks done memory) (isDone : id ∈ done)
    (free : storage.isFree id = true) :
    ∃ owner, memory.place id = some (.own owner) ∧
      ∀ other ∈ done, ∀ otherOwner, storage.owner[other]? = some otherOwner →
        storage.inUse.contains otherOwner = true → memory.place other ≠ some (.own owner) := by
  obtain ⟨owner, cell, known, found, holds⟩ := tracks.placed id isDone
  have unused : storage.inUse.contains owner = false := by
    rw [isFree, known] at free
    simpa using free
  rcases holds with rfl | ⟨inUse, -⟩
  · refine ⟨owner, found, fun other isOther otherOwner ownedBy inUse placed => ?_⟩
    obtain ⟨_, cell, knownOther, foundOther, holdsOther⟩ := tracks.placed other isOther
    obtain rfl := Option.some.inj (ownedBy.symm.trans knownOther)
    obtain rfl := Option.some.inj (placed.symm.trans foundOther)
    rcases holdsOther with own | ⟨-, index, outer⟩
    · rw [Cell.own.inj own] at unused
      cases unused.symm.trans inUse
    · cases outer
  · cases unused.symm.trans inUse

theorem sharedArgument?_eq_ok {node : Node} {shared : Option NodeId}
    (success : sharedArgument? rules submodules node = .ok shared) :
    shared = (node.placement rules submodules).target? := by
  obtain ⟨isView, viewed, rest⟩ := Outcome.bind_eq_ok.mp success
  rw [Node.placement, viewed]
  cases isView with
  | true =>
      obtain rfl := Except.ok.inj rest
      cases node.firstRef? with
      | none => rfl
      | some base => rfl
  | false =>
      obtain rfl := Except.ok.inj rest
      rw [Node.writePlacement]
      cases node.toInstruction.mutatedArgument? rules with
      | none => rfl
      | some target => rfl

/-- The analysis of a node tells where its evaluation puts its value. -/
theorem Tracks.step {storage next : Storage} {done : Set NodeId} {memory : Memory V} {node : Node}
    (tracks : storage.Tracks done memory) (inputs : ∀ input ∈ node.inputs, input ∈ done)
    (notOutput : node.op ≠ .output) (absent : node.id ∉ done)
    (success : place rules submodules storage node = .ok next) :
    ∃ later, memory.exec (.withViews rules submodules layout compute) node = .ok later ∧
      next.Tracks (insert node.id done) later := by
  unfold place at success
  split at success
  · next isCall =>
    obtain ⟨shared, sharing, rest⟩ := Outcome.bind_eq_ok.mp success
    obtain rfl := sharedArgument?_eq_ok sharing
    obtain ⟨value, computed⟩ :=
      @Memory.exists_compute V (.withViews rules submodules layout compute) _ _
        fun input isInput => tracks.exists_place (inputs input isInput)
    have executed : memory.exec (.withViews rules submodules layout compute) node =
        memory.call (.withViews rules submodules layout compute) node := Memory.exec_call isCall
    rw [executed]
    have owned : ∀ {later}, memory.call (.withViews rules submodules layout compute) node =
        .ok later → later.Owned (insert node.id done) :=
      fun called => tracks.owned.exec (executed.trans called)
    have target : ∀ id, (node.placement rules submodules).target? = some id → id ∈ done :=
      fun id found => inputs id (Node.mem_inputs_of_placement found)
    cases placement : node.placement rules submodules with
    | view base =>
        rw [placement] at rest target
        obtain rfl := Except.ok.inj rest
        obtain ⟨cell, found⟩ := tracks.exists_place (target base rfl)
        have called := @Memory.call_view V (.withViews rules submodules layout compute)
          memory node base cell placement found
        exact ⟨_, called, tracks.share absent (target base rfl) found rfl (owned called)⟩
    | into base =>
        rw [placement] at rest target
        obtain rfl := Except.ok.inj rest
        obtain ⟨cell, found⟩ := tracks.exists_place (target base rfl)
        have called := @Memory.call_into V (.withViews rules submodules layout compute)
          memory node base cell value placement computed found
        exact ⟨_, called, tracks.share absent (target base rfl) found rfl (owned called)⟩
    | fresh =>
        rw [placement] at rest
        obtain rfl := Except.ok.inj rest
        have called := @Memory.call_fresh V (.withViews rules submodules layout compute)
          memory node value placement computed
        exact ⟨_, called,
          tracks.extend absent rfl (fun _ used => used) rfl (Or.inl rfl) (owned called)⟩
  · next notCall =>
    obtain rfl := Except.ok.inj success
    have executed := @Memory.exec_leaf V (.withViews rules submodules layout compute) memory node
      (Bool.eq_false_of_not_eq_true notCall) notOutput
    refine ⟨_, executed, tracks.extend absent rfl ?_ rfl ?_ (tracks.owned.exec executed)⟩
    · intro other used
      simp only [pin, allot, Std.ExtTreeSet.contains_insert, used, Bool.or_true]
    · exact Or.inr ⟨Std.ExtTreeSet.contains_insert_self, _, rfl⟩

theorem Tracks.run {before : List Node} {storage next : Storage} {done : Set NodeId}
    {memory : Memory V} (tracks : storage.Tracks done memory) (closed : Graph.Closed done before)
    (notOutput : ∀ node ∈ before, node.op ≠ .output) (distinct : (before.map Node.id).Nodup)
    (absent : ∀ node ∈ before, node.id ∉ done)
    (success : before.foldlM (place rules submodules) storage = .ok next) :
    ∃ later,
      before.foldlM (Memory.exec (.withViews rules submodules layout compute)) memory = .ok later ∧
        next.Tracks (done ∪ {id | id ∈ before.map Node.id}) later := by
  induction before generalizing storage done memory with
  | nil =>
      obtain rfl := Except.ok.inj success
      refine ⟨memory, rfl, ?_⟩
      have none : done ∪ {id | id ∈ ([] : List Node).map Node.id} = done := by simp
      rw [none]
      exact tracks
  | cons node rest ih =>
      rw [List.foldlM_cons] at success
      obtain ⟨middle, placed, remaining⟩ := Outcome.bind_eq_ok.mp success
      obtain ⟨here, others⟩ := List.forall_mem_cons.mp absent
      rw [List.map_cons, List.nodup_cons] at distinct
      obtain ⟨first, executed, tracksFirst⟩ :=
        @Tracks.step V rules submodules layout compute _ _ _ _ _
        tracks closed.1 (notOutput node List.mem_cons_self) here placed
      have absentRest := Graph.not_mem_insert_of_absent distinct.1 others
      obtain ⟨later, ran, tracksLater⟩ := ih tracksFirst closed.2
        (fun other member => notOutput other (List.mem_cons_of_mem _ member)) distinct.2 absentRest
        remaining
      refine ⟨later, ?_, ?_⟩
      · rw [List.foldlM_cons]
        exact Outcome.bind_eq_ok.mpr ⟨first, executed, ran⟩
      · rw [← Graph.insert_union_ids]
        exact tracksLater

theorem Tracks.mono {storage next : Storage} {done : Set NodeId} {memory : Memory V}
    (tracks : storage.Tracks done memory)
    (owners : ∀ id ∈ done, next.owner[id]? = storage.owner[id]?)
    (inUse : ∀ other, storage.inUse.contains other = true → next.inUse.contains other = true) :
    next.Tracks done memory := by
  refine ⟨fun id member => ?_, tracks.owned⟩
  obtain ⟨owner, cell, known, found, holds⟩ := tracks.placed id member
  refine ⟨owner, cell, (owners id member).trans known, found, ?_⟩
  exact holds.imp_right fun outer => ⟨inUse owner outer.1, outer.2⟩

/-- The analysis of a node changes the owner of no other node. -/
theorem place_keeps {storage next : Storage} {node : Node}
    (success : place rules submodules storage node = .ok next) :
    (∀ id, id ≠ node.id → next.owner[id]? = storage.owner[id]?) ∧
      ∀ other, storage.inUse.contains other = true → next.inUse.contains other = true := by
  have inserted : ∀ owner id, id ≠ node.id →
      (storage.owner.insert node.id owner)[id]? = storage.owner[id]? := by
    intro owner id different
    rw [Std.ExtTreeMap.getElem?_insert, if_neg]
    exact fun equal => different (Std.LawfulEqOrd.eq_of_compare equal).symm
  unfold place at success
  split at success
  · obtain ⟨shared, -, rest⟩ := Outcome.bind_eq_ok.mp success
    split at rest
    · next target =>
      obtain rfl := Except.ok.inj rest
      rw [share]
      split
      · exact ⟨inserted _, fun _ used => used⟩
      · exact ⟨inserted _, fun _ used => used⟩
    · obtain rfl := Except.ok.inj rest
      exact ⟨inserted _, fun _ used => used⟩
  · obtain rfl := Except.ok.inj success
    refine ⟨inserted _, fun other used => ?_⟩
    simp only [pin, allot, Std.ExtTreeSet.contains_insert, used, Bool.or_true]

theorem foldlM_place_keeps {storage next : Storage} {nodes : List Node}
    (success : nodes.foldlM (place rules submodules) storage = .ok next) :
    (∀ id, id ∉ nodes.map Node.id → next.owner[id]? = storage.owner[id]?) ∧
      ∀ other, storage.inUse.contains other = true → next.inUse.contains other = true := by
  induction nodes generalizing storage with
  | nil =>
      obtain rfl := Except.ok.inj success
      exact ⟨fun _ _ => rfl, fun _ used => used⟩
  | cons node rest ih =>
      rw [List.foldlM_cons] at success
      obtain ⟨middle, placed, remaining⟩ := Outcome.bind_eq_ok.mp success
      obtain ⟨ownersFirst, inUseFirst⟩ := place_keeps placed
      obtain ⟨owners, inUse⟩ := ih remaining
      refine ⟨fun id absent => ?_, fun other used => inUse other (inUseFirst other used)⟩
      simp only [List.map_cons, List.mem_cons, not_or] at absent
      rw [owners id absent.2, ownersFirst id absent.1]

/-- The analysis of a program tracks the memory of every part that a run begins with. -/
theorem exists_tracks {program : Program} {storage : Storage} {before rest : List Node}
    (analysed : ofProgram rules program = .ok storage) (wellFormed : program.graph.WellFormed)
    (valid : Graph.Valid program.graph.nodes) (split : program.graph.nodes = before ++ rest)
    (notOutput : ∀ node ∈ before, node.op ≠ .output) (content : Cell → V) :
    ∃ memory, before.foldlM
        (Memory.exec (.withViews rules program.submodules layout compute)) { content } =
          .ok memory ∧
      storage.Tracks {id | id ∈ before.map Node.id} memory := by
  have distinct := wellFormed.distinct
  have closed := valid.closed
  rw [Graph.ids, split, List.map_append, List.nodup_append] at distinct
  rw [split] at closed
  rw [ofProgram, split, List.foldlM_append] at analysed
  obtain ⟨middle, first, later⟩ := Outcome.bind_eq_ok.mp analysed
  obtain ⟨memory, ran, tracks⟩ := @Tracks.run V rules program.submodules layout compute before {}
    middle ∅ _ (tracks_start _ content) (Graph.closed_append.mp closed).1 notOutput distinct.1
    (fun _ _ impossible => impossible) first
  rw [Set.empty_union] at tracks
  obtain ⟨owners, inUse⟩ := foldlM_place_keeps later
  refine ⟨memory, ran, tracks.mono (fun id member => owners id fun isLater => ?_) inUse⟩
  exact distinct.2.2 id member id isLater rfl

/-- Reading brings the storage of what is read into use and changes no owner. -/
theorem foldl_read (ids : List NodeId) (storage : Storage) :
    (ids.foldl read storage).owner = storage.owner ∧
      (∀ other, storage.inUse.contains other = true →
        (ids.foldl read storage).inUse.contains other = true) ∧
      ∀ id ∈ ids, ∀ owner, storage.owner[id]? = some owner →
        (ids.foldl read storage).inUse.contains owner = true := by
  induction ids generalizing storage with
  | nil => exact ⟨rfl, fun _ used => used, fun _ member => absurd member List.not_mem_nil⟩
  | cons id rest ih =>
      have first : (storage.read id).owner = storage.owner ∧
          (∀ other, storage.inUse.contains other = true →
            (storage.read id).inUse.contains other = true) ∧
          ∀ owner, storage.owner[id]? = some owner →
            (storage.read id).inUse.contains owner = true := by
        rw [read]
        split
        · next owner found =>
          refine ⟨rfl, fun other used => ?_, fun other same => ?_⟩
          · simp only [Std.ExtTreeSet.contains_insert, used, Bool.or_true]
          · obtain rfl := Option.some.inj (found.symm.trans same)
            exact Std.ExtTreeSet.contains_insert_self
        · next unknown =>
          exact ⟨rfl, fun _ used => used, fun _ same => by cases unknown.symm.trans same⟩
      obtain ⟨owners, inUse, reads⟩ := ih (storage.read id)
      rw [List.foldl_cons]
      refine ⟨owners.trans first.1, fun other used => inUse other (first.2.1 other used), ?_⟩
      intro other member owner known
      rcases List.mem_cons.mp member with rfl | later
      · exact inUse owner (first.2.2 owner known)
      · refine reads other later owner ?_
        rw [first.1]
        exact known

end Storage

/-! ### A changed call -/

namespace ReusePlan

variable {V : Type} {rules : Rules} {submodules : Forest} {layout : Nat → Nat}
variable {compute : Op → Operands V → V}

/-- A changed call puts its value where it was put before, or over the operand instead of into a
cell of its own. -/
theorem Grants.placement {node new : Node} {plan : ReusePlan} {operand : NodeId}
    (grants : plan.Grants rules node.toInstruction operand) (submodules : Forest)
    (applied : new.toInstruction = plan.apply node.toInstruction) :
    new.placement rules submodules = node.placement rules submodules ∨
      (node.placement rules submodules = .fresh ∧
        new.placement rules submodules = .into operand) := by
  have op : new.op = node.op := by
    rw [applied]
    rfl
  have first : new.firstRef? = node.firstRef? := by
    rw [applied]
    rfl
  have write : new.writePlacement rules = node.writePlacement rules ∨
      (node.writePlacement rules = .fresh ∧ new.writePlacement rules = .into operand) := by
    rw [Node.writePlacement, Node.writePlacement, applied]
    cases after : (plan.apply node.toInstruction).mutatedArgument? rules with
    | none =>
        rw [grants.still after]
        exact Or.inl rfl
    | some target =>
        obtain rfl := grants.after target after
        cases before : node.toInstruction.mutatedArgument? rules with
        | none => exact Or.inr ⟨rfl, rfl⟩
        | some other =>
            rw [grants.before other before]
            exact Or.inl rfl
  rw [Node.placement, Node.placement, Node.isView_congr op, first]
  split
  · exact Or.inl rfl
  · exact write

/-- A call and the changed call compute the same value. -/
theorem Grants.exists_compute {known : Set NodeId} {memory : Memory V} {node new : Node}
    {plan : ReusePlan} {operand : NodeId}
    (grants : plan.Grants rules node.toInstruction operand)
    (applied : new.toInstruction = plan.apply node.toInstruction)
    (inputs : ∀ input ∈ node.inputs, input ∈ known)
    (places : ∀ id ∈ known, ∃ cell, memory.place id = some cell) :
    ∃ value, memory.compute (.withViews rules submodules layout compute) node = .ok value ∧
      memory.compute (.withViews rules submodules layout compute) new = .ok value := by
  have op : new.op = node.op := by
    rw [applied]
    rfl
  refine (Memory.Agrees.refl places).compute .ref inputs (fun _ _ => rfl) ?_ ?_ (by rw [op])
  · rw [Instruction.bind_ref, applied]
    rfl
  · rw [Instruction.bind_ref, applied]
    exact grants.dataKwargs

/-- Writing a value into a new cell and writing it into the cell of `owner` leave memories that
agree about all nodes outside that cell. -/
theorem agrees_write {storage : Storage} {known : Set NodeId} {memory : Memory V}
    {node new owner : NodeId} (tracks : storage.Tracks known memory) (absent : node ∉ known)
    (absentNew : new ∉ known) (value : V) :
    Memory.Agrees (insert node {other ∈ known | memory.place other ≠ some (.own owner)})
      (Function.update id node new) (Memory.relink Eq (.own node) (.own owner))
      (memory.write node (.own node) value) (memory.write new (.own owner) value) := by
  refine (Memory.Agrees.refl fun other isKnown => tracks.exists_place isKnown).write value ?_
  rintro other (rfl | ⟨isKnown, elsewhere⟩)
  · refine ⟨.own other, .own owner, Memory.place_put_self _ _ _, ?_, Or.inl ⟨rfl, rfl⟩⟩
    rw [Function.update_self]
    exact Memory.place_put_self _ _ _
  · obtain ⟨cell, placed⟩ := tracks.exists_place isKnown
    have different : other ≠ node := fun equal => absent (equal ▸ isKnown)
    have differentNew : other ≠ new := fun equal => absentNew (equal ▸ isKnown)
    refine ⟨cell, cell, ?_, ?_, Or.inr ⟨?_, ?_, rfl⟩⟩
    · rw [Memory.place_put_of_ne different, placed]
    · rw [Function.update_of_ne different]
      exact (Memory.place_put_of_ne differentNew _ _).trans placed
    · rintro rfl
      exact absent (tracks.owned other _ placed)
    · rintro rfl
      exact elsewhere placed

/-- The memories after a call and after the changed call agree about the call and about all values
in storage that is in use. -/
theorem Grants.agrees {storage : Storage} {known : Set NodeId} {memory : Memory V}
    {node new : Node} {plan : ReusePlan} {operand : NodeId}
    (grants : plan.Grants rules node.toInstruction operand)
    (applied : new.toInstruction = plan.apply node.toInstruction)
    (isCall : node.op.isCall = true) (tracks : storage.Tracks known memory)
    (inputs : ∀ input ∈ node.inputs, input ∈ known) (free : storage.isFree operand = true)
    (absent : node.id ∉ known) (absentNew : new.id ∉ known) :
    ∃ l r link known',
      memory.exec (.withViews rules submodules layout compute) node = .ok l ∧
        memory.exec (.withViews rules submodules layout compute) new = .ok r ∧
          Memory.Agrees known' (Function.update id node.id new.id) link l r ∧
            (∀ index, link (.outer index) (.outer index)) ∧ known' ⊆ insert node.id known ∧
              node.id ∈ known' ∧ ∀ id ∈ known, ∀ owner, storage.owner[id]? = some owner →
                storage.inUse.contains owner = true → id ∈ known' := by
  have isCallNew : new.op.isCall = true := by
    rw [applied]
    exact isCall
  have places : ∀ id ∈ known, ∃ cell, memory.place id = some cell :=
    fun id isKnown => tracks.exists_place isKnown
  have computed :=
    @Grants.exists_compute V rules submodules layout compute _ _ _ new _ _ grants applied inputs
      places
  rw [Memory.exec_call isCall, Memory.exec_call isCallNew]
  rcases grants.placement submodules applied with same | ⟨freshBefore, intoOperand⟩
  · obtain ⟨l, r, link, success, successNew, agrees, outer⟩ :=
      @Memory.Agrees.call V (.withViews rules submodules layout compute) _ _ _ _ _
        (Memory.Agrees.refl places) node new computed (same.trans (Placement.map_id _).symm)
        (fun id found => inputs id (Node.mem_inputs_of_placement found))
        (fun id isKnown =>
          ⟨fun equal => absent (equal ▸ isKnown), fun equal => absentNew (equal ▸ isKnown)⟩)
        (fun id _ placed => absent (tracks.owned id _ placed))
        (fun id _ placed => absentNew (tracks.owned _ _ placed))
    exact ⟨l, r, link, _, success, successNew, agrees, fun index => outer index rfl, subset_rfl,
      Set.mem_insert _ _, fun id isKnown _ _ _ => Set.mem_insert_of_mem _ isKnown⟩
  · obtain ⟨value, success, successNew⟩ := computed
    obtain ⟨owner, found, elsewhere⟩ := tracks.own_of_isFree (inputs operand grants.isInput) free
    refine ⟨_, _, _, _, Memory.call_fresh freshBefore success,
      Memory.call_into intoOperand successNew found, agrees_write tracks absent absentNew value,
      fun index => Or.inr ⟨Cell.noConfusion, Cell.noConfusion, rfl⟩,
      Set.insert_subset_insert fun id member => member.1, Set.mem_insert _ _, ?_⟩
    intro id isKnown idOwner ownedBy inUse
    exact Set.mem_insert_of_mem _ ⟨isKnown, elsewhere id isKnown idOwner ownedBy inUse⟩

end ReusePlan

/-! ### The walk -/

namespace ReuseWalk

variable {V : Type} {rules : Rules} {submodules : Forest} {layout : Nat → Nat}
variable {compute : Op → Operands V → V} {content : Cell → V}

/-- A visit changes nothing about what the graph evaluates to, if the readers of storage in use have
been accounted for. -/
theorem Visit.evaluate {walk : ReuseWalk} {before after later : List Node} {node : Node}
    {memory : Memory V} (visit : walk.Visit rules before after node later)
    (stage : walk.Stage (before ++ [node]) after)
    (ran : before.foldlM (Memory.exec (.withViews rules submodules layout compute)) { content } =
      .ok memory)
    (tracks : walk.storage.Tracks {id | id ∈ before.map Node.id} memory)
    (reads : ∀ other ∈ after, ∀ input ∈ other.inputs, input ∈ before.map Node.id →
      ∀ owner, walk.storage.owner[input]? = some owner →
        walk.storage.inUse.contains owner = true) :
    Memory.evaluate (.withViews rules submodules layout compute) content
        (before ++ [node] ++ after) =
      Memory.evaluate (.withViews rules submodules layout compute) content (before ++ later) := by
  cases visit with
  | kept => rw [List.append_assoc, List.singleton_append]
  | @changed plan operand isCall free grants =>
      let new := walk.graph.newNode (plan.apply node.toInstruction) none
      have split : walk.graph.nodes = before ++ node :: after := by
        rw [stage.split, List.append_assoc, List.singleton_append]
      have valid := stage.valid
      rw [List.append_assoc, List.singleton_append] at valid
      obtain ⟨-, reading, closed⟩ := Graph.closed_append.mp valid.closed
      rw [Set.empty_union] at reading closed
      have distinct := stage.wellFormed.distinct
      have newAbsent := stage.wellFormed.nextId_not_mem
      rw [Graph.ids, split, List.map_append, List.map_cons] at distinct newAbsent
      rw [List.nodup_append, List.nodup_cons] at distinct
      rw [List.mem_append, List.mem_cons] at newAbsent
      have absent := stage.wellFormed.not_mem_before split
      obtain ⟨l, r, link, known, success, successNew, agrees, outer, subset, isKnown, inUse⟩ :=
        @ReusePlan.Grants.agrees V rules submodules layout compute walk.storage _ memory node new
          plan operand grants rfl isCall tracks reading free absent
          fun member => newAbsent (Or.inl member)
      -- Behind the call, only storage in use is read, so the readers never see the operand.
      have closedKnown : Graph.Closed known after := by
        refine closed.restrict fun other member input isInput earlier => ?_
        rcases earlier with rfl | earlier
        · exact isKnown
        · obtain ⟨owner, _, ownedBy, _, _⟩ := tracks.placed input earlier
          exact inUse input earlier owner ownedBy
            (reads other member input isInput earlier owner ownedBy)
      let done : Set NodeId := insert new.id (insert node.id {id | id ∈ before.map Node.id})
      have absentAfter : ∀ other ∈ after, other.id ∉ done := by
        rintro other member (isNew | isNode | earlier)
        · have isNext : other.id = walk.graph.nextId := isNew
          exact newAbsent (Or.inr (Or.inr (isNext ▸ List.mem_map_of_mem member)))
        · exact distinct.2.1.1 (isNode ▸ List.mem_map_of_mem member)
        · exact distinct.2.2 _ earlier _ (List.mem_cons_of_mem _ (List.mem_map_of_mem member)) rfl
      have owned : l.Owned done := fun id owner placed =>
        Set.mem_insert_of_mem _ (tracks.owned.exec success id owner placed)
      have ownedNew : r.Owned done := fun id owner placed =>
        (tracks.owned.exec successNew id owner placed).imp_right fun earlier =>
          Set.mem_insert_of_mem _ earlier
      obtain ⟨past, arranged⟩ := valid.arranged.of_append
      rw [Graph.arranged_cons_inner (Op.isInner_of_isCall isCall)] at arranged
      obtain ⟨l', r', outputs, ranAfter, ranNew, results, resultsNew, contents⟩ :=
        @Memory.Agrees.run_redirect V rules submodules layout compute known done node.id new.id link
          l r true after agrees arranged closedKnown distinct.2.1.2 absentAfter
          (subset.trans (Set.subset_insert _ _)) (Set.mem_insert_of_mem _ (Set.mem_insert _ _))
          (Set.mem_insert _ _) owned ownedNew outer
      have evaluated := Memory.evaluate_of_run (Memory.run_split ran success ranAfter) results
      have evaluatedNew :=
        Memory.evaluate_of_run (Memory.run_split ran successNew ranNew) resultsNew
      rw [List.append_assoc, List.singleton_append, evaluated, funext contents]
      exact evaluatedNew.symm

/-- The walk has kept what the graph evaluates to, and whatever the visited nodes read is in use. -/
structure Sound (program : Program) (analysis : Storage) (layout : Nat → Nat)
    (compute : Op → Operands V → V) (content : Cell → V) (rules : Rules) (before after : List Node)
    (walk : ReuseWalk) : Prop where
  split : ∃ rest, program.graph.nodes = before ++ rest
  owner : walk.storage.owner = analysis.owner
  inUse : ∀ other, analysis.inUse.contains other = true →
    walk.storage.inUse.contains other = true
  reads : ∀ node ∈ after, ∀ input ∈ node.inputs, input ∈ before.map Node.id →
    ∀ owner, walk.storage.owner[input]? = some owner → walk.storage.inUse.contains owner = true
  evaluation :
    Memory.evaluate (.withViews rules program.submodules layout compute) content (before ++ after) =
      Memory.evaluate (.withViews rules program.submodules layout compute) content
        program.graph.nodes

theorem Sound.visit {program : Program} {analysis : Storage} {walk next : ReuseWalk}
    {before after later : List Node} {node : Node}
    (sound : Sound program analysis layout compute content rules (before ++ [node]) after walk)
    (analysed : Storage.ofProgram rules program = .ok analysis)
    (wellFormed : program.graph.WellFormed) (valid : Graph.Valid program.graph.nodes)
    (stage : walk.Stage (before ++ [node]) after) (visit : walk.Visit rules before after node later)
    (storage : next.storage = node.inputs.foldl Storage.read walk.storage) :
    Sound program analysis layout compute content rules before later next := by
  obtain ⟨rest, split⟩ := sound.split
  rw [List.append_assoc, List.singleton_append] at split
  obtain ⟨owners, inUse, marked⟩ := Storage.foldl_read node.inputs walk.storage
  rw [← storage] at owners inUse marked
  have notOutput : ∀ other ∈ before, other.op ≠ .output := by
    have arranged := valid.arranged
    rw [split] at arranged
    exact arranged.not_output
  obtain ⟨memory, ran, tracks⟩ :=
    @Storage.exists_tracks V rules layout compute program analysis before
    _ analysed wellFormed valid split notOutput content
  have tracksWalk : walk.storage.Tracks {id | id ∈ before.map Node.id} memory :=
    tracks.mono (fun id _ => by rw [sound.owner]) sound.inUse
  have readsAfter : ∀ other ∈ after, ∀ input ∈ other.inputs, input ∈ before.map Node.id →
      ∀ owner, walk.storage.owner[input]? = some owner →
        walk.storage.inUse.contains owner = true := by
    intro other member input isInput earlier
    refine sound.reads other member input isInput ?_
    rw [List.map_append]
    exact List.mem_append_left _ earlier
  refine ⟨⟨node :: rest, split⟩, owners.trans sound.owner,
    fun other used => inUse other (sound.inUse other used), ?_, ?_⟩
  · have kept : ∀ other ∈ after, ∀ input ∈ other.inputs, input ∈ before.map Node.id →
        ∀ owner, next.storage.owner[input]? = some owner →
          next.storage.inUse.contains owner = true := by
      intro other member input isInput earlier owner ownedBy
      rw [owners] at ownedBy
      exact inUse owner (readsAfter other member input isInput earlier owner ownedBy)
    cases visit with
    | kept =>
        intro other member input isInput earlier owner ownedBy
        rcases List.mem_cons.mp member with rfl | later
        · rw [owners] at ownedBy
          exact marked input isInput owner ownedBy
        · exact kept other later input isInput earlier owner ownedBy
    | @changed plan operand isCall free grants =>
        intro other member input isInput earlier owner ownedBy
        rcases List.mem_cons.mp member with rfl | later
        · rw [owners] at ownedBy
          exact marked input (grants.reads input isInput) owner ownedBy
        · obtain ⟨source, isSource, rfl⟩ := List.mem_map.mp later
          rcases Node.mem_inputs_redirect isInput with ⟨old, -⟩ | ⟨-, isNew⟩
          · exact kept source isSource input old earlier owner ownedBy
          · obtain rfl := List.mem_singleton.mp isNew
            refine absurd ?_ stage.wellFormed.nextId_not_mem
            rw [Graph.ids, stage.split, List.map_append, List.map_append]
            exact List.mem_append_left _ (List.mem_append_left _ earlier)
  · rw [← sound.evaluation]
    exact (visit.evaluate stage ran tracksWalk readsAfter).symm

end ReuseWalk

/-- A valid program has a result, whatever its operations mean. -/
theorem exists_evaluate {V : Type} {rules : Rules} {program : Program} {analysis : Storage}
    (analysed : Storage.ofProgram rules program = .ok analysis)
    (wellFormed : program.graph.WellFormed) (valid : Graph.Valid program.graph.nodes)
    (layout : Nat → Nat) (compute : Op → Operands V → V) (content : Cell → V) :
    ∃ result, Memory.evaluate (.withViews rules program.submodules layout compute) content
      program.graph.nodes = .ok result := by
  obtain ⟨before, output, split, isOutput⟩ := valid.arranged.exists_output
  have arranged := valid.arranged
  have closed := valid.closed
  rw [split] at arranged closed
  obtain ⟨memory, ran, tracks⟩ :=
    @Storage.exists_tracks V rules layout compute program analysis before
    [output] analysed wellFormed valid split arranged.not_output content
  have bound : ∀ input ∈ output.inputs, Argument.Bound memory.look input := by
    intro input isInput
    have earlier := (Graph.closed_append.mp closed).2.1 input isInput
    rw [Set.empty_union] at earlier
    obtain ⟨cell, found⟩ := tracks.exists_place earlier
    exact ⟨_, Memory.look_eq_ok found⟩
  obtain ⟨outputs, read⟩ := Instruction.exists_read bound
  have whole : program.graph.nodes.foldlM
      (Memory.exec (.withViews rules program.submodules layout compute)) { content } =
        .ok { memory with outputs := some outputs } := by
    rw [split]
    exact Memory.run_split ran (Memory.exec_output isOutput read) rfl
  exact ⟨_, Memory.evaluate_of_run whole rfl⟩

/-- Storage reuse changes neither the contents of the results nor the final contents of the inputs
and attributes, whatever the operations compute, whichever inputs share a cell, and whatever the
cells hold to begin with. -/
theorem storage_reuse_preserves_contents {V : Type} {rules : Rules} {accepts : Signatures}
    {program : Program} {graph : Graph} {calls : List ReusedCall}
    (wellFormed : program.graph.WellFormed) (valid : program.graph.validate = .ok ())
    (success : reuseStorage rules accepts program = .ok (graph, calls)) (layout : Nat → Nat)
    (compute : Op → Operands V → V) (content : Cell → V) :
    ∃ outputs contents,
      Memory.evaluate (.withViews rules program.submodules layout compute) content
          program.graph.nodes = .ok (outputs, contents) ∧
        Memory.evaluate (.withViews rules program.submodules layout compute) content graph.nodes =
          .ok (outputs, contents) := by
  have validNodes := Graph.validate_eq_ok_iff.mp valid
  obtain ⟨analysis, analysed, -⟩ := reuseStorage_eq_ok wellFormed success
  obtain ⟨walk, sound, -, -⟩ := @reuseStorage_induction rules accepts program
    (fun before after walk =>
      ReuseWalk.Sound program analysis layout compute content rules before after walk)
    (fun _ _ _ _ _ _ sound stage visit storage =>
      sound.visit analysed wellFormed validNodes stage visit storage)
    graph calls wellFormed validNodes
    (fun storage placed => by
      obtain rfl := Except.ok.inj (analysed.symm.trans placed)
      refine ⟨⟨[], (List.append_nil _).symm⟩, rfl, fun _ used => used, ?_, ?_⟩
      · exact fun _ member => absurd member List.not_mem_nil
      · rw [List.append_nil])
    success
  obtain ⟨⟨outputs, contents⟩, evaluated⟩ :=
    exists_evaluate analysed wellFormed validNodes layout compute content
  exact ⟨outputs, contents, evaluated, sound.evaluation.trans evaluated⟩

/-- Two calls in a row: the first one must not write over the input, the second one may write over
the value of the first. -/
def chainedCalls : Program where
  graph :=
    { nodes :=
        [{ op := .placeholder, id := ⟨0⟩, name := "input" },
          { op := .callFunction ⟨"exp"⟩, args := [.ref ⟨0⟩], id := ⟨1⟩, name := "exp" },
          { op := .callFunction ⟨"log"⟩, args := [.ref ⟨1⟩], id := ⟨2⟩, name := "log" },
          { op := .output, args := [.ref ⟨2⟩, .ref ⟨0⟩], id := ⟨3⟩, name := "output" }]
      created := 4 }

theorem chainedCalls_preserves_contents :
    ∃ graph call, reuseStorage {} (fun _ => true) chainedCalls = .ok (graph, [call]) ∧
      ∃ outputs contents,
        Memory.evaluate (.withViews {} [] id fun op operands => (op, operands.args.length))
            (fun _ => (.placeholder, 0)) chainedCalls.graph.nodes = .ok (outputs, contents) ∧
          Memory.evaluate (.withViews {} [] id fun op operands => (op, operands.args.length))
            (fun _ => (.placeholder, 0)) graph.nodes = .ok (outputs, contents) := by
  obtain ⟨graph, call, success⟩ : ∃ graph call,
      reuseStorage {} (fun _ => true) chainedCalls = .ok (graph, [call]) := ⟨_, _, rfl⟩
  exact ⟨graph, call, success,
    storage_reuse_preserves_contents ⟨by decide, by decide⟩ (by decide) success id _ _⟩

end OpGraph
