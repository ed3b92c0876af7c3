import OpGraph.Proofs.Substitution

/-!
# Reading arguments

The arguments of a call are read by looking up the values of the nodes that they refer to.  A value
is again a literal, a tuple of values, or an atom of some type.  Reading is local: it depends only
on the values of the references (`Instruction.read_congr`), and reading after a substitution looks
the substituted arguments up (`Instruction.read_bind`).
-/

namespace OpGraph

/-- Evaluation cannot go on, because something that it needs is missing. -/
structure Stuck where
deriving DecidableEq

/-- The values of the arguments of a call, with atoms of type `V`. -/
@[ext]
structure Operands (V : Type) where
  /-- The values of the positional arguments. -/
  args : List (Argument V)
  /-- The values of the keyword arguments. -/
  kwargs : Kwargs V

theorem Outcome.mapM_congr {ε α β : Type} {left right : α → Except ε β} {items : List α}
    (same : ∀ item ∈ items, left item = right item) : items.mapM left = items.mapM right := by
  induction items with
  | nil => rfl
  | cons item rest ih =>
      rw [List.mapM_cons, List.mapM_cons, same item List.mem_cons_self,
        ih fun other member => same other (List.mem_cons_of_mem _ member)]

namespace Argument

variable {ρ σ τ ε : Type}

theorem traverse_congr {left right : ρ → Except ε (Argument σ)} {argument : Argument ρ}
    (same : ∀ target ∈ argument.refs, left target = right target) :
    argument.traverse left = argument.traverse right := by
  induction argument with
  | ref target => exact same target (by simp [refs])
  | literal value => rfl
  | tuple items ih =>
      have each : ∀ item ∈ items, item.traverse left = item.traverse right := fun item member =>
        ih item member fun target isRef => same target (mem_refsAll.mpr ⟨item, member, isRef⟩)
      rw [traverse, traverse, traverseAll_eq_mapM, traverseAll_eq_mapM]
      congr 1
      exact Outcome.mapM_congr each

theorem traverse_bind (image : ρ → Argument σ) (look : σ → Except ε (Argument τ))
    (argument : Argument ρ) :
    (argument.bind image).traverse look =
      argument.traverse fun target => (image target).traverse look := by
  induction argument with
  | ref target => rfl
  | literal value => rfl
  | tuple items ih =>
      rw [bind, traverse, traverse, traverseAll_eq_mapM, traverseAll_eq_mapM, bindAll_eq_map,
        List.mapM_map]
      congr 1
      exact Outcome.mapM_congr ih

end Argument

namespace Kwargs

variable {ρ σ τ ε : Type}

theorem traverse_congr {left right : ρ → Except ε (Argument σ)} {kwargs : Kwargs ρ}
    (same : ∀ target ∈ kwargs.refs, left target = right target) :
    kwargs.traverse left = kwargs.traverse right := by
  have entries : ∀ entry ∈ kwargs.toList,
      entry.2.traverse left = entry.2.traverse right := by
    intro entry member
    refine Argument.traverse_congr fun target isRef => same target ?_
    exact List.mem_flatMap.mpr ⟨entry, member, isRef⟩
  rw [traverse, traverse]
  congr 1
  refine Outcome.mapM_congr fun entry member => ?_
  dsimp only
  rw [entries entry member]

theorem traverse_bind (image : ρ → Argument σ) (look : σ → Except ε (Argument τ))
    (kwargs : Kwargs ρ) :
    (kwargs.bind image).traverse look =
      kwargs.traverse fun target => (image target).traverse look := by
  rw [traverse, traverse, bind, Std.ExtTreeMap.toList_map, List.mapM_map]
  congr 1
  refine Outcome.mapM_congr fun entry _ => ?_
  simp only [Function.comp_apply, Argument.traverse_bind]

end Kwargs

namespace Instruction

variable {V : Type}

/-- Look the values of the arguments up. -/
def read (look : NodeId → Except Stuck (Argument V)) (instruction : Instruction) :
    Except Stuck (Operands V) := do
  let args ← Argument.traverseAll look instruction.args
  let kwargs ← instruction.kwargs.traverse look
  return ⟨args, kwargs⟩

theorem read_eq_ok_iff {look : NodeId → Except Stuck (Argument V)} {instruction : Instruction}
    {operands : Operands V} :
    instruction.read look = .ok operands ↔
      Argument.traverseAll look instruction.args = .ok operands.args ∧
        instruction.kwargs.traverse look = .ok operands.kwargs := by
  constructor
  · intro success
    obtain ⟨args, foundArgs, success⟩ := Outcome.bind_eq_ok.mp success
    obtain ⟨kwargs, foundKwargs, same⟩ := Outcome.bind_eq_ok.mp success
    obtain rfl := Except.ok.inj same
    exact ⟨foundArgs, foundKwargs⟩
  · rintro ⟨foundArgs, foundKwargs⟩
    exact Outcome.bind_eq_ok.mpr ⟨_, foundArgs, Outcome.bind_eq_ok.mpr ⟨_, foundKwargs, rfl⟩⟩

theorem read_congr {left right : NodeId → Except Stuck (Argument V)} {instruction : Instruction}
    (same : ∀ input ∈ instruction.inputs, left input = right input) :
    instruction.read left = instruction.read right := by
  have args : Argument.traverseAll left instruction.args =
      Argument.traverseAll right instruction.args := by
    rw [Argument.traverseAll_eq_mapM, Argument.traverseAll_eq_mapM]
    refine Outcome.mapM_congr fun argument member => Argument.traverse_congr fun target isRef => ?_
    exact same target (mem_inputs.mpr (Or.inl (Argument.mem_refsAll.mpr ⟨argument, member, isRef⟩)))
  have kwargs : instruction.kwargs.traverse left = instruction.kwargs.traverse right :=
    Kwargs.traverse_congr fun target isRef => same target (mem_inputs.mpr (Or.inr isRef))
  rw [read, read, args, kwargs]

theorem read_bind (image : NodeId → Arg) (look : NodeId → Except Stuck (Argument V))
    (instruction : Instruction) :
    (instruction.bind image).read look =
      instruction.read fun target => (image target).traverse look := by
  have args : Argument.traverseAll look (Argument.bindAll image instruction.args) =
      Argument.traverseAll (fun target => (image target).traverse look) instruction.args := by
    rw [Argument.traverseAll_eq_mapM, Argument.traverseAll_eq_mapM, Argument.bindAll_eq_map,
      List.mapM_map]
    exact Outcome.mapM_congr fun argument _ => Argument.traverse_bind image look argument
  rw [read, read, bind, args, Kwargs.traverse_bind]

/-- Arguments whose references all have values can be read. -/
theorem exists_read {look : NodeId → Except Stuck (Argument V)} {instruction : Instruction}
    (bound : ∀ input ∈ instruction.inputs, Argument.Bound look input) :
    ∃ operands, instruction.read look = .ok operands := by
  have args := Argument.traverseAll_eq_ok_iff.mpr
    ⟨fun target isRef => bound target (mem_inputs.mpr (Or.inl isRef)), rfl⟩
  have kwargs := Kwargs.traverse_eq_ok_iff.mpr
    ⟨fun target isRef => bound target (mem_inputs.mpr (Or.inr isRef)), rfl⟩
  exact ⟨⟨_, _⟩, read_eq_ok_iff.mpr ⟨args, kwargs⟩⟩

/-- Only references with values can be read. -/
theorem bound_of_read {look : NodeId → Except Stuck (Argument V)} {instruction : Instruction}
    {operands : Operands V} (success : instruction.read look = .ok operands) :
    ∀ input ∈ instruction.inputs, Argument.Bound look input := by
  obtain ⟨foundArgs, foundKwargs⟩ := read_eq_ok_iff.mp success
  intro input isInput
  rcases mem_inputs.mp isInput with inArgs | inKwargs
  · exact (Argument.traverseAll_eq_ok_iff.mp foundArgs).1 input inArgs
  · exact (Kwargs.traverse_eq_ok_iff.mp foundKwargs).1 input inKwargs

end Instruction

end OpGraph
