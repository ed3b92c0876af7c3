import OpGraph.Naming
import OpGraph.Proofs.Reading

/-!
# Where calls put their values

A call puts its value into a cell of its own, into the cell of an argument, or returns the cell of
an argument.  Some keyword arguments only say where the value is put; the others are the data of the
call.  All of this is the same under other names for the nodes.
-/

namespace OpGraph

/-- Where a call puts its value. -/
inductive Placement where
  /-- Nowhere: the value is that of another node, in the same cell. -/
  | view (base : NodeId)
  /-- Into the cell of another node. -/
  | into (target : NodeId)
  /-- Into a cell of its own. -/
  | fresh
deriving DecidableEq

namespace Placement

/-- The node whose cell the placement refers to. -/
def target? : Placement → Option NodeId
  | view base => some base
  | into target => some target
  | fresh => none

/-- The placement with other names for nodes. -/
def map (rename : NodeId → NodeId) : Placement → Placement
  | view base => view (rename base)
  | into target => into (rename target)
  | fresh => fresh

@[simp]
theorem map_id (placement : Placement) : placement.map id = placement := by
  cases placement <;> rfl

theorem target?_map (rename : NodeId → NodeId) (placement : Placement) :
    (placement.map rename).target? = placement.target?.map rename := by
  cases placement <;> rfl

end Placement

namespace Instruction

/-- The keyword arguments that do not say where the result is to be put. -/
def dataKwargs (instruction : Instruction) : Kwargs NodeId :=
  (instruction.kwargs.erase Rules.inplaceKeyword).erase Rules.outKeyword

/-- The instruction without the keyword arguments that say where the result is to be put. -/
def data (instruction : Instruction) : Instruction :=
  { instruction with kwargs := instruction.dataKwargs }

theorem mem_inputs_of_mem_data {instruction : Instruction} {input : NodeId}
    (isInput : input ∈ instruction.data.inputs) : input ∈ instruction.inputs := by
  rcases mem_inputs.mp isInput with inArgs | inKwargs
  · exact mem_inputs.mpr (Or.inl inArgs)
  · refine mem_inputs.mpr (Or.inr ?_)
    exact Kwargs.mem_refs_of_mem_refs_erase (Kwargs.mem_refs_of_mem_refs_erase inKwargs)

theorem data_bind (image : NodeId → Arg) (instruction : Instruction) :
    (instruction.bind image).data = instruction.data.bind image := by
  rw [data, data, bind, bind, dataKwargs, dataKwargs, Kwargs.bind_erase, Kwargs.bind_erase]

end Instruction

namespace Node

/-- A call writes into the argument that it changes, if there is one. -/
def writePlacement (rules : Rules) (node : Node) : Placement :=
  match node.toInstruction.mutatedArgument? rules with
  | some target => .into target
  | none => .fresh

/-- A view returns its first argument, if that is a bare reference, and writes nothing; any other
call writes into the argument that it changes. -/
def placement (rules : Rules) (submodules : Forest) (node : Node) : Placement :=
  match node.isView rules submodules with
  | .ok true =>
    match node.firstRef? with
    | some base => .view base
    | none => .fresh
  | _ => node.writePlacement rules

end Node

namespace Instruction

/-- A call writes into its receiver or into its first argument. -/
theorem mutatedArgument?_eq_some {rules : Rules} {instruction : Instruction} {target : NodeId}
    (found : instruction.mutatedArgument? rules = some target) :
    instruction.kwargs[Rules.outKeyword]?.bind Argument.asRef? = some target ∨
      instruction.firstRef? = some target := by
  unfold mutatedArgument? at found
  split at found
  · split at found
    · next receiver =>
      obtain rfl := Option.some.inj found
      exact Or.inl receiver
    · split at found
      · exact Or.inr found
      · cases found
  · cases found

theorem mem_inputs_of_firstRef? {instruction : Instruction} {target : NodeId}
    (first : instruction.firstRef? = some target) : target ∈ instruction.inputs := by
  obtain ⟨argument, isHead, isRef⟩ := Option.bind_eq_some_iff.mp first
  refine mem_inputs.mpr (Or.inl (Argument.mem_refsAll.mpr ⟨argument, List.mem_of_head? isHead, ?_⟩))
  cases argument with
  | ref other =>
      obtain rfl := Option.some.inj isRef
      exact List.mem_singleton_self _
  | literal value => cases isRef
  | tuple items => cases isRef

end Instruction

namespace Argument

theorem eq_ref_of_asRef? {ρ : Type} {argument : Argument ρ} {target : ρ}
    (found : argument.asRef? = some target) : argument = .ref target := by
  cases argument with
  | ref other => rw [Option.some.inj found]
  | literal value => cases found
  | tuple items => cases found

end Argument

/-! ### Placements under other names -/

namespace Argument

theorem asRef?_bind_ref {ρ σ : Type} (rename : ρ → σ) (argument : Argument ρ) :
    (argument.bind fun target => ref (rename target)).asRef? = argument.asRef?.map rename := by
  cases argument with
  | ref target => rfl
  | literal value => rfl
  | tuple items => rfl

theorem truth?_bind_ref {ρ σ : Type} (rename : ρ → σ) (argument : Argument ρ) :
    (argument.bind fun target => ref (rename target)).truth? = argument.truth? := by
  cases argument with
  | ref target => rfl
  | literal value => rfl
  | tuple items => rfl

end Argument

namespace Instruction

theorem firstRef?_bind_ref (rename : NodeId → NodeId) (instruction : Instruction) :
    (instruction.bind fun target => .ref (rename target)).firstRef? =
      instruction.firstRef?.map rename := by
  show (Argument.bindAll _ instruction.args).head?.bind _ = _
  rw [Argument.bindAll_eq_map, List.head?_map, firstRef?]
  cases instruction.args.head? with
  | none => rfl
  | some argument => exact Argument.asRef?_bind_ref rename argument

theorem isFlagged_bind_ref (rename : NodeId → NodeId) (instruction : Instruction) :
    (instruction.bind fun target => .ref (rename target)).isFlagged = instruction.isFlagged := by
  have flag : (instruction.bind fun target => .ref (rename target)).kwargs[Rules.inplaceKeyword]? =
      instruction.kwargs[Rules.inplaceKeyword]?.map
        (Argument.bind fun target => .ref (rename target)) := Kwargs.getElem?_bind _ _ _
  rw [isFlagged, isFlagged, flag]
  cases instruction.kwargs[Rules.inplaceKeyword]? with
  | none => rfl
  | some argument =>
      simp only [Option.map_some, Option.bind_some, Argument.truth?_bind_ref]

/-- A call under other names writes into the argument that it wrote into before. -/
theorem mutatedArgument?_bind_ref (rules : Rules) (rename : NodeId → NodeId)
    (instruction : Instruction) :
    (instruction.bind fun target => .ref (rename target)).mutatedArgument? rules =
      (instruction.mutatedArgument? rules).map rename := by
  have receiver :
      (instruction.bind fun target => .ref (rename target)).kwargs[Rules.outKeyword]?.bind
      Argument.asRef? =
        (instruction.kwargs[Rules.outKeyword]?.bind Argument.asRef?).map rename := by
    have out : (instruction.bind fun target => .ref (rename target)).kwargs[Rules.outKeyword]? =
        instruction.kwargs[Rules.outKeyword]?.map
          (Argument.bind fun target => .ref (rename target)) := Kwargs.getElem?_bind _ _ _
    rw [out]
    cases instruction.kwargs[Rules.outKeyword]? with
    | none => rfl
    | some argument => exact Argument.asRef?_bind_ref rename argument
  have variant : (instruction.bind fun target => .ref (rename target)).isVariant rules =
      instruction.isVariant rules := rfl
  have marked : (instruction.bind fun target => .ref (rename target)).isMarked =
      instruction.isMarked := rfl
  rw [mutatedArgument?, mutatedArgument?, receiver, isFlagged_bind_ref, variant, marked,
    firstRef?_bind_ref]
  show (if instruction.op.isCall = true then _ else _) = _
  split
  · cases instruction.kwargs[Rules.outKeyword]?.bind Argument.asRef? with
    | some target => rfl
    | none =>
        dsimp only [Option.map_none]
        split
        · rfl
        · rfl
  · rfl

theorem mem_inputs_of_mutatedArgument? {rules : Rules} {instruction : Instruction}
    {target : NodeId} (found : instruction.mutatedArgument? rules = some target) :
    target ∈ instruction.inputs := by
  rcases mutatedArgument?_eq_some found with receiver | first
  · obtain ⟨argument, isOut, isRef⟩ := Option.bind_eq_some_iff.mp receiver
    refine mem_inputs.mpr (Or.inr (Kwargs.mem_refs.mpr ⟨_, argument, isOut, ?_⟩))
    rw [Argument.eq_ref_of_asRef? isRef]
    exact List.mem_singleton_self _
  · exact mem_inputs_of_firstRef? first

end Instruction

namespace Node

/-- Whether a node is a view depends on its operation only. -/
theorem isView_congr {node other : Node} (op : other.op = node.op) (rules : Rules)
    (submodules : Forest) : other.isView rules submodules = node.isView rules submodules := by
  rw [isView, isView, shortName, shortName, op]
  cases node.op with
  | placeholder | getAttr | output => rfl
  | callFunction | callMethod | callModule => rfl

theorem placement_bind_ref {node other : Node} (rename : NodeId → NodeId)
    (renamed : other.toInstruction = node.toInstruction.bind fun target => .ref (rename target))
    (rules : Rules) (submodules : Forest) :
    other.placement rules submodules = (node.placement rules submodules).map rename := by
  have op : other.op = node.op := by
    rw [renamed]
    rfl
  rw [placement, placement, isView_congr op, writePlacement, writePlacement, renamed,
    Instruction.firstRef?_bind_ref, Instruction.mutatedArgument?_bind_ref]
  split
  · cases node.firstRef? with
    | none => rfl
    | some base => rfl
  · cases node.toInstruction.mutatedArgument? rules with
    | none => rfl
    | some target => rfl

theorem mem_inputs_of_placement {node : Node} {rules : Rules} {submodules : Forest}
    {target : NodeId} (found : (node.placement rules submodules).target? = some target) :
    target ∈ node.inputs := by
  unfold placement writePlacement at found
  split at found
  · split at found
    · next first =>
      obtain rfl := Option.some.inj found
      exact Instruction.mem_inputs_of_firstRef? first
    · cases found
  · split at found
    · next written =>
      obtain rfl := Option.some.inj found
      exact Instruction.mem_inputs_of_mutatedArgument? written
    · cases found

end Node

end OpGraph
