import Mathlib.Data.List.Forall2
import Mathlib.Data.Set.Function
import OpGraph.Proofs.PurificationSteps
import OpGraph.Proofs.Renaming

/-!
# Renumbered graphs

Two graphs are the same up to numbering if an injective map of identities takes the nodes of one to
those of the other; names do not matter (`Graph.Renumbered`).

While two graphs are changed in the same way, a numbering is kept of all identities that have been
seen on the first side, those of erased nodes included (`Numbering`).  New nodes on both sides
extend it.  Everything that refers to nodes comes in pairs, the second of which is the first with
the numbers of the second graph, and the operations on graphs take pairs to pairs.
-/

namespace OpGraph

theorem Kwargs.isEmpty_bind {ρ σ : Type} (image : ρ → Argument σ) (kwargs : Kwargs ρ) :
    (kwargs.bind image).isEmpty = kwargs.isEmpty := by
  rw [← Std.ExtTreeMap.isEmpty_toList, ← Std.ExtTreeMap.isEmpty_toList, bind,
    Std.ExtTreeMap.toList_map, List.isEmpty_map]

/-- A node with another identity that reads renumbered nodes; the name is free. -/
structure Node.RenumberedBy (number : NodeId → NodeId) (left right : Node) : Prop where
  id : right.id = number left.id
  instruction : right.toInstruction = left.toInstruction.bind fun id => .ref (number id)

theorem Node.RenumberedBy.map_id {number : NodeId → NodeId} {lefts rights : List Node}
    (nodes : List.Forall₂ (RenumberedBy number) lefts rights) :
    rights.map Node.id = (lefts.map Node.id).map number := by
  induction nodes with
  | nil => rfl
  | cons here _ ih => rw [List.map_cons, List.map_cons, List.map_cons, here.id, ih]

/-- The graphs have the same nodes in the same order, up to a renumbering of the nodes and their
names. -/
def Graph.Renumbered (left right : Graph) : Prop :=
  ∃ number : NodeId → NodeId, Set.InjOn number {id | id ∈ left.ids} ∧
    List.Forall₂ (Node.RenumberedBy number) left.nodes right.nodes

/-- A correspondence of identities. -/
structure Numbering where
  /-- The identities seen on the first side. -/
  known : Set NodeId
  /-- The identity on the second side. -/
  number : NodeId → NodeId
  /-- Different identities have different numbers. -/
  injective : Set.InjOn number known

namespace Numbering

variable {numbering smaller larger : Numbering}

/-- A reference to the corresponding node. -/
def image (numbering : Numbering) (id : NodeId) : Arg :=
  .ref (numbering.number id)

/-- The correspondence of all identities with themselves. -/
def same : Numbering :=
  ⟨Set.univ, id, Set.injOn_id _⟩

/-- Let two new identities correspond. -/
def extend (numbering : Numbering) (left right : NodeId) (freshLeft : left ∉ numbering.known)
    (freshRight : ∀ id ∈ numbering.known, numbering.number id ≠ right) : Numbering where
  known := insert left numbering.known
  number := Function.update numbering.number left right
  injective := by
    have others : ∀ id ∈ numbering.known,
        Function.update numbering.number left right id = numbering.number id := by
      intro id isKnown
      refine Function.update_of_ne ?_ _ _
      rintro rfl
      exact freshLeft isKnown
    rintro first (rfl | isFirst) second (rfl | isSecond) equal
    · rfl
    · rw [Function.update_self, others second isSecond] at equal
      exact absurd equal.symm (freshRight second isSecond)
    · rw [Function.update_self, others first isFirst] at equal
      exact absurd equal (freshRight first isFirst)
    · rw [others first isFirst, others second isSecond] at equal
      exact numbering.injective isFirst isSecond equal

/-- What corresponds in the smaller numbering does so in the larger one. -/
structure Extends (larger smaller : Numbering) : Prop where
  subset : smaller.known ⊆ larger.known
  agrees : Set.EqOn larger.number smaller.number smaller.known

theorem Extends.refl (numbering : Numbering) : numbering.Extends numbering :=
  ⟨subset_rfl, fun _ _ => rfl⟩

theorem Extends.trans {largest : Numbering} (first : larger.Extends smaller)
    (second : largest.Extends larger) : largest.Extends smaller :=
  ⟨first.subset.trans second.subset, fun _ isKnown =>
    (second.agrees (first.subset isKnown)).trans (first.agrees isKnown)⟩

theorem extends_extend {left right : NodeId} (freshLeft : left ∉ numbering.known)
    (freshRight : ∀ id ∈ numbering.known, numbering.number id ≠ right) :
    (numbering.extend left right freshLeft freshRight).Extends numbering := by
  refine ⟨Set.subset_insert _ _, fun id isKnown => Function.update_of_ne ?_ _ _⟩
  rintro rfl
  exact freshLeft isKnown

theorem Extends.image (extension : larger.Extends smaller) {id : NodeId}
    (isKnown : id ∈ smaller.known) : larger.image id = smaller.image id :=
  congrArg Argument.ref (extension.agrees isKnown)

/-! ### Arguments, instructions and nodes -/

/-- An argument and the same argument with the other numbers. -/
structure ArgPair (numbering : Numbering) (left right : Arg) : Prop where
  reads : ∀ id ∈ left.refs, id ∈ numbering.known
  eq : right = left.bind numbering.image

theorem ArgPair.mono {left right : Arg} (pair : smaller.ArgPair left right)
    (extension : larger.Extends smaller) : larger.ArgPair left right := by
  refine ⟨fun id isRef => extension.subset (pair.reads id isRef), ?_⟩
  rw [pair.eq]
  exact Argument.bind_congr fun id isRef => (extension.image (pair.reads id isRef)).symm

theorem argPair_ref {id : NodeId} (isKnown : id ∈ numbering.known) :
    numbering.ArgPair (.ref id) (.ref (numbering.number id)) := by
  refine ⟨fun other isRef => ?_, rfl⟩
  obtain rfl := List.mem_singleton.mp isRef
  exact isKnown

/-- A computation and the same computation with the other numbers. -/
structure InstructionPair (numbering : Numbering) (left right : Instruction) : Prop where
  reads : ∀ input ∈ left.inputs, input ∈ numbering.known
  eq : right = left.bind numbering.image

theorem InstructionPair.mono {left right : Instruction} (pair : smaller.InstructionPair left right)
    (extension : larger.Extends smaller) : larger.InstructionPair left right := by
  refine ⟨fun id isInput => extension.subset (pair.reads id isInput), ?_⟩
  rw [pair.eq]
  exact Instruction.bind_congr fun id isInput => (extension.image (pair.reads id isInput)).symm

theorem InstructionPair.op_eq {left right : Instruction}
    (pair : numbering.InstructionPair left right) : right.op = left.op := by
  rw [pair.eq]
  rfl

theorem InstructionPair.info_eq {left right : Instruction}
    (pair : numbering.InstructionPair left right) : right.info = left.info := by
  rw [pair.eq]
  rfl

theorem InstructionPair.withOp {left right : Instruction}
    (pair : numbering.InstructionPair left right) (op : Op) :
    numbering.InstructionPair { left with op } { right with op } := by
  refine ⟨pair.reads, ?_⟩
  rw [pair.eq]
  rfl

/-- The arguments of corresponding calls correspond. -/
theorem InstructionPair.args {left right : Instruction}
    (pair : numbering.InstructionPair left right) :
    List.Forall₂ numbering.ArgPair left.args right.args := by
  rw [pair.eq]
  show List.Forall₂ _ _ (Argument.bindAll numbering.image left.args)
  rw [Argument.bindAll_eq_map, List.forall₂_map_right_iff, List.forall₂_same]
  refine fun argument member => ⟨fun id isRef => pair.reads id ?_, rfl⟩
  exact Instruction.mem_inputs.mpr (Or.inl (Argument.mem_refsAll.mpr ⟨argument, member, isRef⟩))

theorem InstructionPair.isEmpty_kwargs {left right : Instruction}
    (pair : numbering.InstructionPair left right) :
    right.kwargs.isEmpty = left.kwargs.isEmpty := by
  rw [pair.eq]
  exact Kwargs.isEmpty_bind ..

/-- Replacing a node by an argument takes pairs to pairs. -/
theorem InstructionPair.redirect {left right : Instruction} {old : NodeId} {new newRight : Arg}
    (pair : numbering.InstructionPair left right) (isKnown : old ∈ numbering.known)
    (replacement : numbering.ArgPair new newRight) :
    numbering.InstructionPair (left.bind (Argument.single old new))
      (right.bind (Argument.single (numbering.number old) newRight)) := by
  constructor
  · intro input isInput
    obtain ⟨source, isSource, isRef⟩ := Instruction.mem_inputs_bind.mp isInput
    unfold Argument.single at isRef
    split at isRef
    · exact replacement.reads input isRef
    · obtain rfl := List.mem_singleton.mp isRef
      exact pair.reads input isSource
  · rw [pair.eq, Instruction.bind_bind, Instruction.bind_bind]
    refine Instruction.bind_congr fun id isInput => ?_
    show Argument.single (numbering.number old) newRight (numbering.number id) = _
    unfold Argument.single
    by_cases isOld : id = old
    · rw [if_pos isOld, if_pos (congrArg numbering.number isOld)]
      exact replacement.eq
    · have different : numbering.number id ≠ numbering.number old := fun equal =>
        isOld (numbering.injective (pair.reads id isInput) isKnown equal)
      rw [if_neg isOld, if_neg different]
      rfl

theorem InstructionPair.reads_iff {left right : Instruction} {id : NodeId}
    (pair : numbering.InstructionPair left right) (isKnown : id ∈ numbering.known) :
    left.reads id = true ↔ right.reads (numbering.number id) = true := by
  rw [Instruction.reads, Instruction.reads, List.contains_iff_mem, List.contains_iff_mem, pair.eq,
    Instruction.mem_inputs_bind]
  constructor
  · exact fun isInput => ⟨id, isInput, List.mem_singleton_self _⟩
  · rintro ⟨source, isInput, isRef⟩
    have equal := List.mem_singleton.mp isRef
    exact numbering.injective isKnown (pair.reads source isInput) equal ▸ isInput

/-- A node and the same node with the other numbers, under any name. -/
structure NodePair (numbering : Numbering) (left right : Node) : Prop where
  isKnown : left.id ∈ numbering.known
  id : right.id = numbering.number left.id
  instruction : numbering.InstructionPair left.toInstruction right.toInstruction

theorem NodePair.mono {left right : Node} (pair : smaller.NodePair left right)
    (extension : larger.Extends smaller) : larger.NodePair left right :=
  ⟨extension.subset pair.isKnown, pair.id.trans (extension.agrees pair.isKnown).symm,
    pair.instruction.mono extension⟩

theorem NodePair.id_iff {left right : Node} {id : NodeId} (pair : numbering.NodePair left right)
    (isKnown : id ∈ numbering.known) : left.id = id ↔ right.id = numbering.number id := by
  rw [pair.id]
  exact ⟨congrArg numbering.number, numbering.injective pair.isKnown isKnown⟩

/-! ### Graphs -/

/-- A graph and the same graph with other numbers, under any names.  On both sides the known
identities have been handed out. -/
structure GraphPair (numbering : Numbering) (left right : Graph) : Prop where
  nodes : List.Forall₂ numbering.NodePair left.nodes right.nodes
  belowLeft : ∀ id ∈ numbering.known, id.index < left.created
  belowRight : ∀ id ∈ numbering.known, (numbering.number id).index < right.created

namespace GraphPair

variable {left right : Graph} {id : NodeId}

theorem isKnown_of_mem (pair : numbering.GraphPair left right) {node : Node}
    (member : node ∈ left.nodes) : node.id ∈ numbering.known := by
  have nodes := pair.nodes.imp fun _ _ here => And.intro here.isKnown here
  exact ((List.forall₂_and_left _ _).mp nodes).1 node member

theorem renumberedBy (pair : numbering.GraphPair left right) :
    List.Forall₂ (Node.RenumberedBy numbering.number) left.nodes right.nodes :=
  pair.nodes.imp fun _ _ here => ⟨here.id, here.instruction.eq⟩

theorem ids (pair : numbering.GraphPair left right) :
    right.ids = left.ids.map numbering.number :=
  Node.RenumberedBy.map_id pair.renumberedBy

/-- The graphs are the same up to numbering. -/
theorem renumbered (pair : numbering.GraphPair left right) : left.Renumbered right := by
  refine ⟨numbering.number, numbering.injective.mono ?_, pair.renumberedBy⟩
  intro id member
  obtain ⟨node, isNode, rfl⟩ := List.mem_map.mp member
  exact pair.isKnown_of_mem isNode

theorem find? (pair : numbering.GraphPair left right) (isKnown : id ∈ numbering.known) :
    Option.Rel numbering.NodePair (left.find? id) (right.find? (numbering.number id)) := by
  have nodes := pair.nodes
  unfold Graph.find?
  generalize left.nodes = lefts, right.nodes = rights at nodes
  induction nodes with
  | nil => exact .none
  | @cons first second lefts rights here _ ih =>
      have same := here.id_iff isKnown
      by_cases isHere : first.id = id
      · rw [List.find?_cons_of_pos (by simpa using isHere),
          List.find?_cons_of_pos (by simpa using same.mp isHere)]
        exact .some here
      · rw [List.find?_cons_of_neg (by simpa using isHere),
          List.find?_cons_of_neg (by simpa using fun equal => isHere (same.mpr equal))]
        exact ih

theorem get (pair : numbering.GraphPair left right) (isKnown : id ∈ numbering.known) :
    Outcome.Matches numbering.NodePair (left.get id) (right.get (numbering.number id)) := by
  have found := pair.find? isKnown
  unfold Graph.get
  generalize left.find? id = first, right.find? (numbering.number id) = second at found
  cases found with
  | some here => exact .ok here
  | none => exact .error

theorem exists_getElem? (pair : numbering.GraphPair left right) {position : Nat} {node : Node}
    (found : left.nodes[position]? = some node) :
    ∃ nodeRight, right.nodes[position]? = some nodeRight ∧ numbering.NodePair node nodeRight := by
  have nodes := pair.nodes
  generalize left.nodes = lefts, right.nodes = rights at found nodes
  induction nodes generalizing position with
  | nil => cases found
  | cons here _ ih =>
      cases position with
      | zero => exact ⟨_, rfl, Option.some.inj found ▸ here⟩
      | succ position => exact ih found

theorem getElem?_eq_none (pair : numbering.GraphPair left right) {position : Nat}
    (noneThere : left.nodes[position]? = none) : right.nodes[position]? = none := by
  rw [List.getElem?_eq_none_iff] at noneThere ⊢
  rw [← pair.nodes.length_eq]
  exact noneThere

theorem length_users (pair : numbering.GraphPair left right) (isKnown : id ∈ numbering.known) :
    (left.users id).length = (right.users (numbering.number id)).length := by
  unfold Graph.users
  rw [List.length_map, List.length_map]
  exact (List.rel_filter (fun _ _ here => here.instruction.reads_iff isKnown) pair.nodes).length_eq

theorem moveTo (pair : numbering.GraphPair left right) (point pointRight : Option NodeId) :
    numbering.GraphPair { left with insertionPoint := point }
      { right with insertionPoint := pointRight } :=
  ⟨pair.nodes, pair.belowLeft, pair.belowRight⟩

theorem redirect (pair : numbering.GraphPair left right) {old : NodeId} {new newRight : Arg}
    (isKnown : old ∈ numbering.known) (replacement : numbering.ArgPair new newRight) :
    numbering.GraphPair (left.redirect old new)
      (right.redirect (numbering.number old) newRight) := by
  refine ⟨?_, pair.belowLeft, pair.belowRight⟩
  refine List.rel_map (fun _ _ here => ?_) pair.nodes
  exact ⟨here.isKnown, here.id, here.instruction.redirect isKnown replacement⟩

theorem drop (pair : numbering.GraphPair left right) (isKnown : id ∈ numbering.known) :
    numbering.GraphPair (left.drop id) (right.drop (numbering.number id)) := by
  refine ⟨?_, pair.belowLeft, pair.belowRight⟩
  refine List.rel_filter (fun _ _ here => ?_) pair.nodes
  simpa using not_congr (here.id_iff isKnown)

/-- A node can be removed on both sides or on neither. -/
theorem erase (pair : numbering.GraphPair left right) (isKnown : id ∈ numbering.known) :
    Outcome.Matches numbering.GraphPair (left.erase id) (right.erase (numbering.number id)) := by
  refine (pair.get isKnown).bind fun _ _ _ => ?_
  rw [pair.length_users isKnown]
  cases (right.users (numbering.number id)).length with
  | zero => exact .ok (pair.drop isKnown)
  | succ users => exact .error

/-! ### New nodes -/

theorem nextId_fresh (pair : numbering.GraphPair left right) : left.nextId ∉ numbering.known :=
  fun isKnown => Nat.lt_irrefl _ (pair.belowLeft _ isKnown)

theorem nextId_fresh_right (pair : numbering.GraphPair left right) :
    ∀ id ∈ numbering.known, numbering.number id ≠ right.nextId := by
  intro id isKnown equal
  have below := pair.belowRight id isKnown
  rw [equal] at below
  exact Nat.lt_irrefl _ below

/-- The numbering once a node has been created on both sides. -/
def next (pair : numbering.GraphPair left right) : Numbering :=
  numbering.extend left.nextId right.nextId pair.nextId_fresh pair.nextId_fresh_right

theorem next_extends (pair : numbering.GraphPair left right) : pair.next.Extends numbering :=
  extends_extend _ _

theorem next_number (pair : numbering.GraphPair left right) :
    pair.next.number left.nextId = right.nextId :=
  Function.update_self _ _ _

theorem nextId_known (pair : numbering.GraphPair left right) : left.nextId ∈ pair.next.known :=
  Set.mem_insert _ _

theorem argPair_nextId (pair : numbering.GraphPair left right) :
    pair.next.ArgPair (.ref left.nextId) (.ref right.nextId) :=
  pair.next_number ▸ argPair_ref pair.nextId_known

end GraphPair

/-- New nodes are placed before corresponding nodes, or at the end on both sides. -/
structure Aims (numbering : Numbering) (left right : Graph) : Prop where
  isKnown : ∀ anchor, left.insertionPoint = some anchor → anchor ∈ numbering.known
  eq : right.insertionPoint = left.insertionPoint.map numbering.number

theorem Aims.mono {left right : Graph} (aims : smaller.Aims left right)
    (extension : larger.Extends smaller) : larger.Aims left right := by
  refine ⟨fun anchor isAnchor => extension.subset (aims.isKnown anchor isAnchor), ?_⟩
  rw [aims.eq]
  exact Option.map_congr fun anchor isAnchor =>
    (extension.agrees (aims.isKnown anchor isAnchor)).symm

theorem forall₂_placeBefore {lefts rights : List Node} {anchor : NodeId} {new newRight : Node}
    (nodes : List.Forall₂ numbering.NodePair lefts rights) (isKnown : anchor ∈ numbering.known)
    (news : numbering.NodePair new newRight) :
    List.Forall₂ numbering.NodePair (Graph.placeBefore anchor new lefts)
      (Graph.placeBefore (numbering.number anchor) newRight rights) := by
  induction nodes with
  | nil => exact .cons news .nil
  | cons here rest ih =>
      unfold Graph.placeBefore
      have same := here.id_iff isKnown
      split
      · next isAnchor =>
        rw [if_pos (same.mp isAnchor)]
        exact .cons news (.cons here rest)
      · next notAnchor =>
        rw [if_neg fun equal => notAnchor (same.mpr equal)]
        exact .cons here ih

theorem forall₂_place {left right : Graph} {new newRight : Node}
    (nodes : List.Forall₂ numbering.NodePair left.nodes right.nodes)
    (aims : numbering.Aims left right)
    (news : numbering.NodePair new newRight) :
    List.Forall₂ numbering.NodePair (left.place new) (right.place newRight) := by
  unfold Graph.place
  rw [aims.eq]
  cases point : left.insertionPoint with
  | some anchor => exact forall₂_placeBefore nodes (aims.isKnown anchor point) news
  | none => exact List.rel_append nodes (.cons news .nil)

namespace GraphPair

variable {left right : Graph}

/-- Creating corresponding nodes takes pairs to pairs. -/
theorem emit (pair : numbering.GraphPair left right) (aims : numbering.Aims left right)
    {instruction instructionRight : Instruction}
    (instructions : numbering.InstructionPair instruction instructionRight)
    (hint hintRight : Option String) :
    pair.next.GraphPair (left.emit instruction hint) (right.emit instructionRight hintRight) := by
  have nodes := pair.nodes.imp fun _ _ here => here.mono pair.next_extends
  refine ⟨?_, ?_, ?_⟩
  · refine forall₂_place nodes (aims.mono pair.next_extends) ?_
    exact ⟨pair.nextId_known, pair.next_number.symm, instructions.mono pair.next_extends⟩
  · rintro id (rfl | isKnown)
    · exact Nat.lt_succ_self _
    · exact Nat.lt_succ_of_lt (pair.belowLeft id isKnown)
  · rintro id (rfl | isKnown)
    · rw [pair.next_number]
      exact Nat.lt_succ_self _
    · rw [pair.next_extends.agrees isKnown]
      exact Nat.lt_succ_of_lt (pair.belowRight id isKnown)

/-- Putting a computation in the place of a node takes pairs to pairs. -/
theorem supersede (pair : numbering.GraphPair left right) {old : NodeId}
    (isKnown : old ∈ numbering.known) {instruction instructionRight : Instruction}
    (instructions : numbering.InstructionPair instruction instructionRight) :
    ∃ larger : Numbering, larger.Extends numbering ∧
      larger.GraphPair (left.supersede old instruction)
        (right.supersede (numbering.number old) instructionRight) := by
  have moved := pair.moveTo (some old) (some (numbering.number old))
  have aims : numbering.Aims { left with insertionPoint := some old }
      { right with insertionPoint := some (numbering.number old) } := by
    refine ⟨fun anchor isAnchor => ?_, rfl⟩
    exact Option.some.inj isAnchor ▸ isKnown
  have emitted := (moved.emit aims instructions none none).moveTo left.insertionPoint
    right.insertionPoint
  have stillKnown := moved.next_extends.subset isKnown
  have dropped := (emitted.redirect stillKnown moved.argPair_nextId).drop stillKnown
  rw [moved.next_extends.agrees isKnown] at dropped
  exact ⟨moved.next, moved.next_extends, dropped⟩

end GraphPair

/-! ### Environments -/

/-- Two environments, one with other numbers for the nodes `sources` that it gives values to, and
for the nodes `targets` that the values refer to. -/
def EnvPair (sources targets : Numbering) (left right : Env) : Prop :=
  ∀ id ∈ sources.known, Option.Rel targets.ArgPair left[id]? right[sources.number id]?

namespace EnvPair

variable {sources targets : Numbering} {left right : Env}

theorem empty (sources targets : Numbering) : sources.EnvPair targets ∅ ∅ := by
  intro id _
  rw [Std.ExtTreeMap.getElem?_empty, Std.ExtTreeMap.getElem?_empty]
  exact .none

theorem mono (pair : sources.EnvPair smaller left right) (extension : larger.Extends smaller) :
    sources.EnvPair larger left right := by
  intro id isKnown
  have found := pair id isKnown
  generalize left[id]? = first, right[sources.number id]? = second at found
  cases found with
  | some values => exact .some (values.mono extension)
  | none => exact .none

theorem insert (pair : sources.EnvPair targets left right) {id : NodeId} {value valueRight : Arg}
    (isKnown : id ∈ sources.known) (values : targets.ArgPair value valueRight) :
    sources.EnvPair targets (left.insert id value)
      (right.insert (sources.number id) valueRight) := by
  intro other otherKnown
  by_cases isHere : other = id
  · rw [isHere, Std.ExtTreeMap.getElem?_insert_self, Std.ExtTreeMap.getElem?_insert_self]
    exact .some values
  · have different : sources.number other ≠ sources.number id := fun equal =>
      isHere (sources.injective otherKnown isKnown equal)
    rw [Env.getElem?_insert_of_ne isHere, Env.getElem?_insert_of_ne different]
    exact pair other otherKnown

theorem value (pair : sources.EnvPair targets left right) {id : NodeId}
    (isKnown : id ∈ sources.known) :
    Outcome.Matches targets.ArgPair (left.value id) (right.value (sources.number id)) := by
  have found := pair id isKnown
  unfold Env.value
  generalize left[id]? = first, right[sources.number id]? = second at found
  cases found with
  | some values => exact .ok values
  | none => exact .error

theorem bound_iff (pair : sources.EnvPair targets left right) {id : NodeId}
    (isKnown : id ∈ sources.known) :
    Argument.Bound left.value id ↔ Argument.Bound right.value (sources.number id) := by
  have values := pair.value isKnown
  unfold Argument.Bound
  generalize left.value id = first, right.value (sources.number id) = second at values
  cases values with
  | ok holds => exact ⟨fun _ => ⟨_, rfl⟩, fun _ => ⟨_, rfl⟩⟩
  | error => constructor <;> (rintro ⟨_, found⟩; cases found)

theorem total (pair : sources.EnvPair targets left right) {id : NodeId}
    (isKnown : id ∈ sources.known) (bound : Argument.Bound left.value id) :
    targets.ArgPair (Argument.total left.value id)
      (Argument.total right.value (sources.number id)) := by
  have values := pair.value isKnown
  obtain ⟨first, found⟩ := bound
  rw [found] at values
  cases isRight : right.value (sources.number id) with
  | ok second =>
      rw [isRight] at values
      rw [Argument.total_of_eq_ok found, Argument.total_of_eq_ok isRight]
      cases values with
      | ok holds => exact holds
  | error cause =>
      rw [isRight] at values
      cases values

/-- Corresponding arguments can be read on both sides or on neither. -/
theorem traverse (pair : sources.EnvPair targets left right) {argument argumentRight : Arg}
    (arguments : sources.ArgPair argument argumentRight) :
    Outcome.Matches targets.ArgPair (argument.traverse left.value)
      (argumentRight.traverse right.value) := by
  rw [arguments.eq]
  refine .of_eq_ok (fun result success => ?_) fun result success => ?_
  · obtain ⟨bound, rfl⟩ := Argument.traverse_eq_ok_iff.mp success
    refine ⟨_, Argument.traverse_eq_ok_iff.mpr ⟨fun id isRef => ?_, rfl⟩, ?_, ?_⟩
    · obtain ⟨source, isSource, isImage⟩ := Argument.mem_refs_bind.mp isRef
      obtain rfl := List.mem_singleton.mp isImage
      exact (pair.bound_iff (arguments.reads source isSource)).mp (bound source isSource)
    · intro id isRef
      obtain ⟨source, isSource, isTarget⟩ := Argument.mem_refs_bind.mp isRef
      exact (pair.total (arguments.reads source isSource) (bound source isSource)).reads id isTarget
    · rw [Argument.bind_bind, Argument.bind_bind]
      exact Argument.bind_congr fun id isRef =>
        (pair.total (arguments.reads id isRef) (bound id isRef)).eq
  · obtain ⟨bound, -⟩ := Argument.traverse_eq_ok_iff.mp success
    refine ⟨_, Argument.traverse_eq_ok_iff.mpr ⟨fun id isRef => ?_, rfl⟩⟩
    refine (pair.bound_iff (arguments.reads id isRef)).mpr (bound _ ?_)
    exact Argument.mem_refs_bind.mpr ⟨id, isRef, List.mem_singleton_self _⟩

/-- Corresponding computations can be read on both sides or on neither. -/
theorem traverseInstruction (pair : sources.EnvPair targets left right)
    {instruction instructionRight : Instruction}
    (instructions : sources.InstructionPair instruction instructionRight) :
    Outcome.Matches targets.InstructionPair (instruction.traverse left.value)
      (instructionRight.traverse right.value) := by
  rw [instructions.eq]
  refine .of_eq_ok (fun result success => ?_) fun result success => ?_
  · obtain ⟨bound, rfl⟩ := Instruction.traverse_eq_ok_iff.mp success
    refine ⟨_, Instruction.traverse_eq_ok_iff.mpr ⟨fun id isInput => ?_, rfl⟩, ?_, ?_⟩
    · obtain ⟨source, isSource, isImage⟩ := Instruction.mem_inputs_bind.mp isInput
      obtain rfl := List.mem_singleton.mp isImage
      exact (pair.bound_iff (instructions.reads source isSource)).mp (bound source isSource)
    · intro id isInput
      obtain ⟨source, isSource, isTarget⟩ := Instruction.mem_inputs_bind.mp isInput
      exact (pair.total (instructions.reads source isSource) (bound source isSource)).reads id
        isTarget
    · rw [Instruction.bind_bind, Instruction.bind_bind]
      exact Instruction.bind_congr fun id isInput =>
        (pair.total (instructions.reads id isInput) (bound id isInput)).eq
  · obtain ⟨bound, -⟩ := Instruction.traverse_eq_ok_iff.mp success
    refine ⟨_, Instruction.traverse_eq_ok_iff.mpr ⟨fun id isInput => ?_, rfl⟩⟩
    refine (pair.bound_iff (instructions.reads id isInput)).mpr (bound _ ?_)
    exact Instruction.mem_inputs_bind.mpr ⟨id, isInput, List.mem_singleton_self _⟩

end EnvPair

end Numbering

end OpGraph
