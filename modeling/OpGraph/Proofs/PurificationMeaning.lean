import OpGraph.Proofs.Memory
import OpGraph.Proofs.PassValidity
import OpGraph.Rules.Standard

/-!
# Purification keeps results

A call that writes into the cell of an argument becomes a call with a cell of its own, and from then
on the environment sends the readers of the argument to the new call.  So the environment renames
the nodes of the source, and the name of a node changes whenever its cell is written.

The two runs are in step (`Purifier.Simulates`): the cell of a node in the source and the cell of
the node that the environment names hold the same content.  A write that is left in place changes
both cells; a write that is purified links the old cell to the new one.
-/

namespace OpGraph

/-- Calls write into the arguments that they change, no call is a view, and no two of the inputs and
attributes share a cell. -/
def Interpretation.withWrites {V : Type} (rules : Rules) (compute : Op → Operands V → V) :
    Interpretation V :=
  { place := Node.writePlacement rules, layout := id, compute }

namespace Rules

/-- The functions that purification puts in are not purified again. -/
structure Flat (rules : Rules) : Prop where
  variant : ∀ function image : FunctionPath, rules.pureVariant? function = some image →
    rules.pureVariant? image = none ∧ image ≠ .getAttribute
  operator : ∀ function image : FunctionPath, rules.operatorFunctions[function]? = some image →
    rules.pureVariant? image = none ∧ image ≠ .getAttribute

/-- A function and its image in a table of purification mean the same. -/
structure Respects {V : Type} (rules : Rules) (compute : Op → Operands V → V) : Prop where
  variant : ∀ function image : FunctionPath, rules.inplaceVariants[function]? = some image →
    compute (.callFunction image) = compute (.callFunction function)
  destructive : ∀ function image : FunctionPath,
    rules.destructiveOperators[function]? = some image →
    compute (.callFunction image) = compute (.callFunction function)
  operator : ∀ function image : FunctionPath, rules.operatorFunctions[function]? = some image →
    compute (.callFunction image) = compute (.callFunction function)

theorem pureVariant?_eq_some {rules : Rules} {function image : FunctionPath}
    (found : rules.pureVariant? function = some image) :
    rules.inplaceVariants[function]? = some image ∨
      rules.destructiveOperators[function]? = some image := by
  unfold pureVariant? at found
  cases first : rules.inplaceVariants[function]? with
  | some other =>
      rw [first] at found
      exact Or.inl found
  | none =>
      rw [first] at found
      exact Or.inr found

theorem Respects.pureVariant? {V : Type} {rules : Rules} {compute : Op → Operands V → V}
    (respects : rules.Respects compute) {function image : FunctionPath}
    (found : rules.pureVariant? function = some image) :
    compute (.callFunction image) = compute (.callFunction function) := by
  rcases pureVariant?_eq_some found with variant | destructive
  · exact respects.variant function image variant
  · exact respects.destructive function image destructive

theorem flat_standard : standard.Flat := by
  have variants : ∀ entry ∈ standard.inplaceVariants.toList,
      standard.pureVariant? entry.2 = none ∧ entry.2 ≠ .getAttribute := by
    decide +kernel
  have destructive : ∀ entry ∈ standard.destructiveOperators.toList,
      standard.pureVariant? entry.2 = none ∧ entry.2 ≠ .getAttribute := by
    decide +kernel
  have operators : ∀ entry ∈ standard.operatorFunctions.toList,
      standard.pureVariant? entry.2 = none ∧ entry.2 ≠ .getAttribute := by
    decide +kernel
  refine ⟨fun function image found => ?_, fun function image found => ?_⟩
  · rcases pureVariant?_eq_some found with listed | listed
    · exact variants (function, image) (Std.ExtTreeMap.mem_toList_iff_getElem?_eq_some.mpr listed)
    · exact destructive (function, image)
        (Std.ExtTreeMap.mem_toList_iff_getElem?_eq_some.mpr listed)
  · exact operators (function, image) (Std.ExtTreeMap.mem_toList_iff_getElem?_eq_some.mpr found)

end Rules

/-! ### The pure form of a call -/

namespace Instruction

/-- A call asks for work in place in at most one way, and if the tracer saw it change an argument, a
flag or a receiver that it carries says so.  It is not the read of an attribute. -/
structure Plain (rules : Rules) (instruction : Instruction) : Prop where
  noRead : instruction.op ≠ .callFunction .getAttribute
  oneWay : [instruction.kwargs.contains Rules.inplaceKeyword,
    instruction.kwargs.contains Rules.outKeyword, instruction.isVariant rules].count true ≤ 1
  marked : instruction.isMarked = true →
    instruction.kwargs.contains Rules.inplaceKeyword = true ∨
      instruction.kwargs.contains Rules.outKeyword = true →
    instruction.isFlagged = true ∨
      (instruction.kwargs[Rules.outKeyword]?.bind Argument.asRef?).isSome = true

theorem isVariant_eq (rules : Rules) (instruction : Instruction) :
    instruction.isVariant rules = (instruction.op.function?.bind rules.pureVariant?).isSome := by
  unfold isVariant
  cases instruction.op.function? with
  | none => rfl
  | some function => rfl

theorem isFlagged_of_none {instruction : Instruction}
    (noFlag : instruction.kwargs[Rules.inplaceKeyword]? = none) :
    instruction.isFlagged = false := by
  rw [isFlagged, noFlag]
  rfl

/-- Without a receiver, a call that works in place changes its first argument. -/
theorem mutatedArgument?_of_noReceiver {rules : Rules} {instruction : Instruction}
    (isCall : instruction.op.isCall = true)
    (noReceiver : instruction.kwargs[Rules.outKeyword]?.bind Argument.asRef? = none) :
    instruction.mutatedArgument? rules =
      if instruction.isFlagged || instruction.isVariant rules || instruction.isMarked then
        instruction.firstRef?
      else none := by
  rw [mutatedArgument?, if_pos isCall, noReceiver]

/-- A call that asks for nothing changes nothing. -/
theorem mutatedArgument?_eq_none {rules : Rules} {instruction : Instruction}
    (noFlag : instruction.kwargs[Rules.inplaceKeyword]? = none)
    (noReceiver : instruction.kwargs[Rules.outKeyword]? = none)
    (noVariant : instruction.isVariant rules = false) (unmarked : instruction.isMarked = false) :
    instruction.mutatedArgument? rules = none := by
  rw [mutatedArgument?, noReceiver, isFlagged_of_none noFlag, noVariant, unmarked]
  split
  · rfl
  · rfl

theorem mutatedArgument?_congr {rules : Rules} {left right : Instruction}
    (isCall : left.op.isCall = true) (isCallRight : right.op.isCall = true)
    (args : left.args = right.args) (kwargs : left.kwargs = right.kwargs)
    (variant : left.isVariant rules = right.isVariant rules)
    (marked : left.isMarked = right.isMarked) :
    left.mutatedArgument? rules = right.mutatedArgument? rules := by
  rw [mutatedArgument?, mutatedArgument?, if_pos isCall, if_pos isCallRight, isFlagged, isFlagged,
    firstRef?, firstRef?, args, kwargs, variant, marked]

theorem dataKwargs_erase {keyword : String}
    (placing : keyword = Rules.inplaceKeyword ∨ keyword = Rules.outKeyword)
    (instruction : Instruction) :
    { instruction with kwargs := instruction.kwargs.erase keyword }.dataKwargs =
      instruction.dataKwargs := by
  refine Std.ExtTreeMap.ext_getElem? fun other => ?_
  simp only [dataKwargs, Std.ExtTreeMap.getElem?_erase]
  rcases placing with rfl | rfl
  · split
    · rfl
    · split <;> rfl
  · split <;> rfl

namespace Plain

variable {rules : Rules} {instruction : Instruction}

theorem of_flag (plain : instruction.Plain rules) {flag : Arg}
    (found : instruction.kwargs[Rules.inplaceKeyword]? = some flag) :
    instruction.kwargs[Rules.outKeyword]? = none ∧ instruction.isVariant rules = false := by
  have oneWay := plain.oneWay
  rw [Std.ExtTreeMap.contains_eq_isSome_getElem?, found,
    Std.ExtTreeMap.contains_eq_isSome_getElem?] at oneWay
  cases receiver : instruction.kwargs[Rules.outKeyword]? with
  | some _ => simp [receiver] at oneWay
  | none =>
      refine ⟨rfl, ?_⟩
      cases variant : instruction.isVariant rules with
      | true => simp [receiver, variant] at oneWay
      | false => rfl

theorem of_receiver (plain : instruction.Plain rules) {receiver : Arg}
    (found : instruction.kwargs[Rules.outKeyword]? = some receiver) :
    instruction.isVariant rules = false := by
  have oneWay := plain.oneWay
  rw [@Std.ExtTreeMap.contains_eq_isSome_getElem? _ _ _ _ _ Rules.outKeyword, found] at oneWay
  cases variant : instruction.isVariant rules with
  | false => rfl
  | true =>
      rw [variant] at oneWay
      cases flag : instruction.kwargs.contains Rules.inplaceKeyword with
      | true => simp [flag] at oneWay
      | false => simp [flag] at oneWay

/-- A plain call with a flag changes its first argument if the flag is true. -/
theorem mutatedArgument?_of_flag (plain : instruction.Plain rules)
    (isCall : instruction.op.isCall = true) {flag : Arg}
    (found : instruction.kwargs[Rules.inplaceKeyword]? = some flag) :
    instruction.mutatedArgument? rules =
      if flag.truth? = some true then instruction.firstRef? else none := by
  obtain ⟨noReceiver, noVariant⟩ := plain.of_flag found
  have flagged : instruction.isFlagged = (flag.truth? == some true) := by
    rw [isFlagged, found]
    rfl
  rw [mutatedArgument?_of_noReceiver isCall (by rw [noReceiver]; rfl), noVariant, flagged,
    Bool.or_false]
  by_cases isTrue : flag.truth? = some true
  · simp [isTrue]
  · have unmarked : instruction.isMarked = false := by
      refine Bool.eq_false_of_not_eq_true fun isMarked => isTrue ?_
      have present : instruction.kwargs.contains Rules.inplaceKeyword = true := by
        rw [Std.ExtTreeMap.contains_eq_isSome_getElem?, found]
        rfl
      rcases plain.marked isMarked (Or.inl present) with isFlagged | hasReceiver
      · exact eq_of_beq (flagged ▸ isFlagged)
      · rw [noReceiver] at hasReceiver
        cases hasReceiver
    simp [isTrue, unmarked]

/-- A plain call with a receiver and no flag changes the receiver. -/
theorem mutatedArgument?_of_receiver (plain : instruction.Plain rules)
    (isCall : instruction.op.isCall = true)
    (noFlag : instruction.kwargs[Rules.inplaceKeyword]? = none) {receiver : Arg}
    (found : instruction.kwargs[Rules.outKeyword]? = some receiver) :
    instruction.mutatedArgument? rules = receiver.asRef? := by
  cases isRef : receiver.asRef? with
  | some target => rw [mutatedArgument?, if_pos isCall, found, Option.bind_some, isRef]
  | none =>
      have noReceiver : instruction.kwargs[Rules.outKeyword]?.bind Argument.asRef? = none := by
        rw [found, Option.bind_some, isRef]
      have unmarked : instruction.isMarked = false := by
        refine Bool.eq_false_of_not_eq_true fun isMarked => ?_
        have present : instruction.kwargs.contains Rules.outKeyword = true := by
          rw [Std.ExtTreeMap.contains_eq_isSome_getElem?, found]
          rfl
        rcases plain.marked isMarked (Or.inr present) with isFlagged | hasReceiver
        · rw [isFlagged_of_none noFlag] at isFlagged
          cases isFlagged
        · rw [noReceiver] at hasReceiver
          cases hasReceiver
      rw [mutatedArgument?_of_noReceiver isCall noReceiver, plain.of_receiver found, unmarked,
        isFlagged_of_none noFlag]
      rfl

end Plain

end Instruction

theorem Op.eq_callFunction_of_function? {op : Op} {function : FunctionPath}
    (found : op.function? = some function) : op = .callFunction function := by
  cases op with
  | callFunction other => rw [Option.some.inj found]
  | placeholder | getAttr | callMethod | callModule | output => cases found

namespace PureForm.Suits

variable {rules : Rules} {node : Node} {info : ValueInfo} {form : PureForm}

/-- The pure form has the data of the call. -/
theorem dataKwargs_sourceCall
    (suits : Suits rules node info form.op form.dropped form.changed form.isPure) :
    (Purifier.sourceCall info form node).dataKwargs = node.toInstruction.dataKwargs := by
  obtain ⟨op, dropped, changed, isPure, counted⟩ := form
  cases suits with
  | flagged => exact Instruction.dataKwargs_erase (Or.inl rfl) node.toInstruction
  | received => exact Instruction.dataKwargs_erase (Or.inr rfl) node.toInstruction
  | variant | operator | remaining | other => rfl

/-- The pure form computes what the call computes. -/
theorem meaning {V : Type} {compute : Op → Operands V → V}
    (suits : Suits rules node info form.op form.dropped form.changed form.isPure)
    (respects : rules.Respects compute) : compute form.op = compute node.op := by
  obtain ⟨op, dropped, changed, isPure, counted⟩ := form
  cases suits with
  | flagged | received | remaining | other => rfl
  | variant _ _ _ _ found =>
      obtain ⟨function, isFunction, listed⟩ := Option.bind_eq_some_iff.mp found
      rw [Op.eq_callFunction_of_function? isFunction]
      exact respects.pureVariant? listed
  | operator _ _ _ _ _ isFunction listed =>
      rw [isFunction]
      exact respects.operator _ _ listed

/-- A call that is not the read of an attribute does not become one. -/
theorem op_ne_getAttribute
    (suits : Suits rules node info form.op form.dropped form.changed form.isPure)
    (flat : rules.Flat) (plain : node.toInstruction.Plain rules) :
    form.op ≠ .callFunction .getAttribute := by
  obtain ⟨op, dropped, changed, isPure, counted⟩ := form
  cases suits with
  | flagged | received | remaining | other => exact plain.noRead
  | variant _ _ _ _ found =>
      obtain ⟨function, -, listed⟩ := Option.bind_eq_some_iff.mp found
      exact fun same => (flat.variant _ _ listed).2 (Op.callFunction.inj same)
  | operator _ _ _ _ _ _ listed =>
      exact fun same => (flat.operator _ _ listed).2 (Op.callFunction.inj same)

theorem isMarked_sourceCall (info : ValueInfo) (form : PureForm) (node : Node) :
    (Purifier.sourceCall info form node).isMarked = (!form.isPure && info.isMutation) := by
  show (if form.isPure then { info with isMutation := false } else info).isMutation = _
  cases form.isPure with
  | true => rfl
  | false => rfl

/-- The pure form changes nothing, and the environment learns what the call changed; or it changes
what the call changes, and the environment learns nothing. -/
theorem mutatedArgument?_sourceCall
    (suits : Suits rules node info form.op form.dropped form.changed form.isPure)
    (flat : rules.Flat) (plain : node.toInstruction.Plain rules) (isCall : node.op.isCall = true)
    (hasInfo : node.info = some info) :
    (form.changed = (node.toInstruction.mutatedArgument? rules).toList ∧
        (Purifier.sourceCall info form node).mutatedArgument? rules = none) ∨
      (form.changed = [] ∧ (Purifier.sourceCall info form node).mutatedArgument? rules =
        node.toInstruction.mutatedArgument? rules) := by
  have isCallForm := suits.isCall isCall
  have marked := isMarked_sourceCall info form node
  have markedNode : node.toInstruction.isMarked = info.isMutation := by
    rw [Instruction.isMarked, hasInfo]
  have kept : (!(!info.isMutation) && info.isMutation) = info.isMutation := by
    rw [Bool.not_not, Bool.and_self]
  obtain ⟨op, dropped, changed, isPure, counted⟩ := form
  cases suits with
  | @flagged flag _ _ found =>
      obtain ⟨noReceiver, noVariant⟩ := plain.of_flag found
      left
      constructor
      · rw [plain.mutatedArgument?_of_flag isCall found, apply_ite Option.toList]
        rfl
      · refine Instruction.mutatedArgument?_eq_none ?_ ?_ noVariant marked
        · exact Std.ExtTreeMap.getElem?_erase_self
        · show (node.kwargs.erase _)[_]? = _
          rw [Std.ExtTreeMap.getElem?_erase, noReceiver, ite_self]
  | @received receiver _ _ noFlag found =>
      left
      constructor
      · rw [plain.mutatedArgument?_of_receiver isCall noFlag found]
        rfl
      · refine Instruction.mutatedArgument?_eq_none ?_ ?_ (plain.of_receiver found) marked
        · show (node.kwargs.erase _)[_]? = _
          rw [Std.ExtTreeMap.getElem?_erase, noFlag, ite_self]
        · exact Std.ExtTreeMap.getElem?_erase_self
  | @variant function _ _ noFlag noReceiver found =>
      have isVariant : node.toInstruction.isVariant rules = true := by
        rw [Instruction.isVariant_eq, found]
        rfl
      left
      constructor
      · show node.firstRef?.toList = _
        rw [Instruction.mutatedArgument?_of_noReceiver isCall (by rw [noReceiver]; rfl), isVariant,
          Bool.or_true, Bool.true_or, if_pos rfl]
      · refine Instruction.mutatedArgument?_eq_none noFlag noReceiver ?_ marked
        obtain ⟨_, -, listed⟩ := Option.bind_eq_some_iff.mp found
        show (rules.pureVariant? function).isSome = false
        rw [(flat.variant _ _ listed).1]
        rfl
  | @operator function replacement _ _ _ _ noVariant _ listed =>
      right
      refine ⟨rfl, Instruction.mutatedArgument?_congr isCallForm isCall rfl rfl ?_ ?_⟩
      · rw [Instruction.isVariant_eq rules node.toInstruction, noVariant]
        show (rules.pureVariant? replacement).isSome = false
        rw [(flat.operator _ _ listed).1]
        rfl
      · exact (marked.trans kept).trans markedNode.symm
  | remaining =>
      right
      refine ⟨rfl, Instruction.mutatedArgument?_congr isCallForm isCall rfl rfl rfl ?_⟩
      exact (marked.trans kept).trans markedNode.symm
  | other =>
      right
      refine ⟨rfl, Instruction.mutatedArgument?_congr isCallForm isCall rfl rfl rfl ?_⟩
      exact marked.trans markedNode.symm

end PureForm.Suits

/-! ### Two runs in step -/

namespace Purifier

variable {V : Type}

/-- The environment names, for every known node of the source, a node of the new graph whose cell
holds the same content.  No two known nodes of the source share a cell. -/
structure Simulates (known done doneNew : Set NodeId) (env : Env) (rename : NodeId → NodeId)
    (link : Cell → Cell → Prop) (left right : Memory V) : Prop where
  agrees : Memory.Agrees known rename link left right
  bound : ∀ id ∈ known, env[id]? = some (.ref (rename id))
  apart : ∀ id ∈ known, ∀ other ∈ known, left.place id = left.place other → id = other
  below : ∀ id index, left.place id = some (.outer index) → index < left.leaves
  outer : ∀ index, left.leaves ≤ index → link (.outer index) (.outer index)
  done : known ⊆ done
  doneNew : ∀ id ∈ known, rename id ∈ doneNew

namespace Simulates

variable {known done doneNew : Set NodeId} {env : Env} {rename : NodeId → NodeId}
variable {link : Cell → Cell → Prop} {left right : Memory V} {id name : NodeId}

theorem start (content : Cell → V) (env : Env) :
    Simulates ∅ done doneNew env (fun node => node) Eq { content } { content } where
  agrees := .refl fun _ isKnown => absurd isKnown (Set.notMem_empty _)
  bound := fun _ isKnown => absurd isKnown (Set.notMem_empty _)
  apart := fun _ isKnown => absurd isKnown (Set.notMem_empty _)
  below := fun _ _ placed => by cases placed
  outer := fun _ _ => rfl
  done := Set.empty_subset _
  doneNew := fun _ isKnown => absurd isKnown (Set.notMem_empty _)

theorem fresh (simulates : Simulates known done doneNew env rename link left right)
    (isNew : id ∉ done) (isNewName : name ∉ doneNew) :
    ∀ other ∈ known, other ≠ id ∧ rename other ≠ name := by
  intro other isKnown
  constructor
  · rintro rfl
    exact isNew (simulates.done isKnown)
  · rintro rfl
    exact isNewName (simulates.doneNew other isKnown)

/-- A node in a cell that no known node has becomes known. -/
theorem learn {left' right' : Memory V} {link' : Cell → Cell → Prop} {cell : Cell}
    (simulates : Simulates known done doneNew env rename link left right)
    (isNew : id ∉ done) (isNewName : name ∉ doneNew)
    (agrees : Memory.Agrees (insert id known) (Function.update rename id name) link' left' right')
    (places : left'.place = (left.put id cell).place) (leaves : left.leaves ≤ left'.leaves)
    (unused : ∀ other ∈ known, left.place other ≠ some cell)
    (below : ∀ index, cell = .outer index → index < left'.leaves)
    (outer : ∀ index, left'.leaves ≤ index → link' (.outer index) (.outer index)) :
    Simulates (insert id known) (insert id done) (insert name doneNew)
      (env.insert id (.ref name)) (Function.update rename id name) link' left' right' := by
  have fresh := simulates.fresh isNew isNewName
  have own : left'.place id = some cell := by
    rw [places, Memory.place_put_self]
  have kept : ∀ other, other ≠ id → left'.place other = left.place other := by
    intro other different
    rw [places, Memory.place_put_of_ne different]
  refine ⟨agrees, ?_, ?_, ?_, outer, Set.insert_subset_insert simulates.done, ?_⟩
  · rintro other (rfl | isKnown)
    · rw [Std.ExtTreeMap.getElem?_insert_self, Function.update_self]
    · have different := (fresh other isKnown).1
      rw [Env.getElem?_insert_of_ne different, Function.update_of_ne different]
      exact simulates.bound other isKnown
  · rintro first (rfl | isKnown) second (rfl | isKnownSecond) same
    · rfl
    · rw [own, kept second (fresh second isKnownSecond).1] at same
      exact absurd same.symm (unused second isKnownSecond)
    · rw [own, kept first (fresh first isKnown).1] at same
      exact absurd same (unused first isKnown)
    · rw [kept first (fresh first isKnown).1, kept second (fresh second isKnownSecond).1] at same
      exact simulates.apart first isKnown second isKnownSecond same
  · intro other index placed
    by_cases same : other = id
    · rw [same, own] at placed
      exact below index (Option.some.inj placed)
    · rw [kept other same] at placed
      exact (simulates.below other index placed).trans_le leaves
  · rintro other (rfl | isKnown)
    · rw [Function.update_self]
      exact Set.mem_insert _ _
    · rw [Function.update_of_ne (fresh other isKnown).1]
      exact Set.mem_insert_of_mem _ (simulates.doneNew other isKnown)

/-- The next input or attribute becomes known. -/
theorem enter (simulates : Simulates known done doneNew env rename link left right)
    (isNew : id ∉ done) (isNewName : name ∉ doneNew) :
    Simulates (insert id known) (insert id done) (insert name doneNew)
      (env.insert id (.ref name)) (Function.update rename id name) link
      { left.put id (.outer left.leaves) with leaves := left.leaves + 1 }
      { right.put name (.outer right.leaves) with leaves := right.leaves + 1 } := by
  have agrees := simulates.agrees.enter (simulates.fresh isNew isNewName)
    (simulates.outer left.leaves le_rfl)
  rw [← simulates.agrees.leaves]
  rw [← simulates.agrees.leaves] at agrees
  refine simulates.learn isNew isNewName agrees rfl (Nat.le_succ _) ?_ ?_ ?_
  · exact fun other _ placed => absurd (simulates.below other _ placed) (lt_irrefl _)
  · rintro index same
    obtain rfl := Cell.outer.inj same
    exact Nat.lt_succ_self _
  · exact fun index beyond => simulates.outer index (Nat.le_of_succ_le beyond)

/-- A call with a cell of its own becomes known. -/
theorem allocate (simulates : Simulates known done doneNew env rename link left right)
    (owned : left.Owned done) (ownedNew : right.Owned doneNew) (isNew : id ∉ done)
    (isNewName : name ∉ doneNew) (value : V) :
    Simulates (insert id known) (insert id done) (insert name doneNew)
      (env.insert id (.ref name)) (Function.update rename id name)
      (Memory.relink link (.own id) (.own name)) (left.write id (.own id) value)
      (right.write name (.own name) value) := by
  have unused : ∀ other ∈ known, left.place other ≠ some (.own id) :=
    fun other _ placed => isNew (owned other id placed)
  have agrees := simulates.agrees.allocate (simulates.fresh isNew isNewName) unused
    (fun other _ placed => isNewName (ownedNew (rename other) name placed)) value
  refine simulates.learn isNew isNewName agrees rfl le_rfl unused (fun _ same => by cases same) ?_
  intro index beyond
  exact Or.inr ⟨Cell.noConfusion, Cell.noConfusion, simulates.outer index beyond⟩

/-- After a write into the cell of a known node, the known nodes are where they were. -/
theorem change {right' : Memory V} {env' : Env} {rename' : NodeId → NodeId}
    {link' : Cell → Cell → Prop} {target : NodeId} {cell : Cell} {value : V}
    (simulates : Simulates known done doneNew env rename link left right)
    (isNew : id ∉ done) (placed : left.place target = some cell)
    (agrees : Memory.Agrees known rename' link' (left.write id cell value) right')
    (bound : ∀ other ∈ known, env'[other]? = some (.ref (rename' other)))
    (outer : ∀ index, left.leaves ≤ index → link' (.outer index) (.outer index))
    (named : ∀ other ∈ known, rename' other = name ∨ rename' other = rename other) :
    Simulates known (insert id done) (insert name doneNew) env' rename' link'
      (left.write id cell value) right' := by
  have kept : ∀ other ∈ known, (left.put id cell).place other = left.place other := by
    intro other isKnown
    refine Memory.place_put_of_ne ?_ _ _
    rintro rfl
    exact isNew (simulates.done isKnown)
  refine ⟨agrees, bound, ?_, ?_, outer, simulates.done.trans (Set.subset_insert _ _), ?_⟩
  · intro first isKnown second isKnownSecond same
    have same' : (left.put id cell).place first = (left.put id cell).place second := same
    rw [kept first isKnown, kept second isKnownSecond] at same'
    exact simulates.apart first isKnown second isKnownSecond same'
  · intro other index found
    have found' : (left.put id cell).place other = some (.outer index) := found
    by_cases same : other = id
    · rw [same, Memory.place_put_self] at found'
      obtain rfl := Option.some.inj found'
      exact simulates.below target index placed
    · rw [Memory.place_put_of_ne same] at found'
      exact simulates.below other index found'
  · intro other isKnown
    rcases named other isKnown with same | same
    · exact Or.inl same
    · exact Or.inr (same ▸ simulates.doneNew other isKnown)

/-- A call that is left to write into the cell of an argument does so in both runs. -/
theorem overwrite {target : NodeId} {cell other : Cell}
    (simulates : Simulates known done doneNew env rename link left right) (isNew : id ∉ done)
    (isNewName : name ∉ doneNew) (placed : left.place target = some cell) (linked : link cell other)
    (value : V) :
    Simulates known (insert id done) (insert name doneNew) (env.insert id (.ref name)) rename
      (Memory.relink link cell other) (left.write id cell value)
      (right.write name other value) := by
  have fresh := simulates.fresh isNew isNewName
  have agrees := (simulates.agrees.overwrite fresh linked value).mono (Set.subset_insert _ _)
    fun node isKnown => (Function.update_of_ne (fresh node isKnown).1 _ _).symm
  refine simulates.change isNew placed agrees ?_ ?_ fun _ _ => Or.inr rfl
  · intro node isKnown
    rw [Env.getElem?_insert_of_ne (fresh node isKnown).1]
    exact simulates.bound node isKnown
  · exact fun index beyond => simulates.agrees.relink_outer linked (simulates.outer index beyond)

/-- A call that wrote into the cell of an argument gets a cell of its own, and the argument is
sought there from then on. -/
theorem rebind {target : NodeId} {cell : Cell}
    (simulates : Simulates known done doneNew env rename link left right)
    (ownedNew : right.Owned doneNew) (isNew : id ∉ done) (isNewName : name ∉ doneNew)
    (isTarget : target ∈ known) (placed : left.place target = some cell) (value : V) :
    Simulates known (insert id done) (insert name doneNew)
      ((env.insert target (.ref name)).insert id (.ref name)) (Function.update rename target name)
      (Memory.relink link cell (.own name)) (left.write id cell value)
      (right.write name (.own name) value) := by
  have fresh := simulates.fresh isNew isNewName
  have places : ∀ node ∈ known, ∃ c d, (left.put id cell).place node = some c ∧
      (right.put name (.own name)).place (Function.update rename target name node) = some d ∧
        Memory.relink link cell (.own name) c d := by
    intro node isKnown
    rw [Memory.place_put_of_ne (fresh node isKnown).1]
    by_cases same : node = target
    · subst same
      exact ⟨cell, .own name, placed, by rw [Function.update_self, Memory.place_put_self],
        Or.inl ⟨rfl, rfl⟩⟩
    · obtain ⟨c, d, found, foundNew, linked⟩ := simulates.agrees.places node isKnown
      refine ⟨c, d, found, ?_, Or.inr ⟨?_, ?_, linked⟩⟩
      · rw [Function.update_of_ne same, Memory.place_put_of_ne (fresh node isKnown).2, foundNew]
      · rintro rfl
        exact same (simulates.apart node isKnown target isTarget (found.trans placed.symm))
      · rintro rfl
        exact isNewName (ownedNew (rename node) name foundNew)
  refine simulates.change isNew placed (simulates.agrees.write value places) ?_ ?_ ?_
  · intro node isKnown
    rw [Env.getElem?_insert_of_ne (fresh node isKnown).1]
    by_cases same : node = target
    · rw [same, Std.ExtTreeMap.getElem?_insert_self, Function.update_self]
    · rw [Env.getElem?_insert_of_ne same, Function.update_of_ne same]
      exact simulates.bound node isKnown
  · intro index beyond
    refine Or.inr ⟨?_, Cell.noConfusion, simulates.outer index beyond⟩
    rintro rfl
    exact absurd (simulates.below target index placed) (Nat.not_lt.mpr beyond)
  · intro node _
    by_cases same : node = target
    · rw [same, Function.update_self]
      exact Or.inl rfl
    · exact Or.inr (Function.update_of_ne same _ _)

/-- The end of a run changes no cell. -/
theorem conclude (simulates : Simulates known done doneNew env rename link left right)
    (isNew : id ∉ done) (isNewName : name ∉ doneNew) (outputs : Operands V) :
    Simulates known (insert id done) (insert name doneNew) (env.insert id (.ref name)) rename link
      { left with outputs := some outputs } { right with outputs := some outputs } where
  agrees :=
    ⟨simulates.agrees.places, simulates.agrees.contents, simulates.agrees.unique,
      simulates.agrees.leaves⟩
  bound := by
    intro node isKnown
    rw [Env.getElem?_insert_of_ne (simulates.fresh isNew isNewName node isKnown).1]
    exact simulates.bound node isKnown
  apart := simulates.apart
  below := simulates.below
  outer := simulates.outer
  done := simulates.done.trans (Set.subset_insert _ _)
  doneNew := fun node isKnown => Set.mem_insert_of_mem _ (simulates.doneNew node isKnown)

/-- What the environment binds an argument to is the new name of the argument. -/
theorem total_value (simulates : Simulates known done doneNew env rename link left right)
    {node : NodeId} (isKnown : node ∈ known) :
    Argument.total env.value node = .ref (rename node) :=
  Argument.total_of_eq_ok (Env.value_eq_ok_iff.mpr (simulates.bound node isKnown))

/-- The pure form of a call computes the same value from the renamed arguments. -/
theorem compute {rules : Rules} {meaning : Op → Operands V → V} {node new : Node} {info : ValueInfo}
    {form : PureForm} (simulates : Simulates known done doneNew env rename link left right)
    (respects : rules.Respects meaning)
    (suits : PureForm.Suits rules node info form.op form.dropped form.changed form.isPure)
    (inputs : ∀ input ∈ node.inputs, input ∈ known)
    (renamed : new.toInstruction =
      (sourceCall info form node).bind fun target => .ref (rename target)) :
    ∃ value, left.compute (.withWrites rules meaning) node = .ok value ∧
      right.compute (.withWrites rules meaning) new = .ok value := by
  refine simulates.agrees.compute (fun target => .ref (rename target)) inputs (fun _ _ => rfl)
    ?_ ?_ ?_
  · rw [renamed]
    rfl
  · rw [renamed]
    show ((sourceCall info form node).bind _).data.kwargs = _
    rw [Instruction.data_bind]
    exact congrArg (Kwargs.bind _) suits.dataKwargs_sourceCall
  · rw [renamed]
    exact suits.meaning respects

/-- A call and its pure form keep the runs in step.  What is known afterwards includes the call if
it changes no argument. -/
theorem call {rules : Rules} {meaning : Op → Operands V → V} {node new : Node} {info : ValueInfo}
    {form : PureForm} {known' : Set NodeId}
    (simulates : Simulates known done doneNew env rename link left right)
    (owned : left.Owned done) (ownedNew : right.Owned doneNew) (isNew : node.id ∉ done)
    (isNewName : new.id ∉ doneNew) (flat : rules.Flat) (respects : rules.Respects meaning)
    (plain : node.toInstruction.Plain rules) (isCall : node.op.isCall = true)
    (hasInfo : node.info = some info)
    (suits : PureForm.Suits rules node info form.op form.dropped form.changed form.isPure)
    (inputs : ∀ input ∈ node.inputs, input ∈ known)
    (renamed : new.toInstruction =
      (sourceCall info form node).bind fun target => .ref (rename target))
    (grows : node.toInstruction.mutatedArgument? rules = none → known' = insert node.id known)
    (stays : node.toInstruction.mutatedArgument? rules ≠ none → known' = known) :
    ∃ rename' link' l r, left.exec (.withWrites rules meaning) node = .ok l ∧
      right.exec (.withWrites rules meaning) new = .ok r ∧ l.outputs = left.outputs ∧
        r.outputs = right.outputs ∧
          Simulates known' (insert node.id done) (insert new.id doneNew)
            ((env.rebindAll form.changed (.ref new.id)).insert node.id (.ref new.id))
            rename' link' l r := by
  obtain ⟨value, computed, computedNew⟩ := simulates.compute respects suits inputs renamed
  have isCallNew : new.op.isCall = true := by
    rw [renamed]
    exact suits.isCall isCall
  have written : new.toInstruction.mutatedArgument? rules =
      ((sourceCall info form node).mutatedArgument? rules).map rename := by
    rw [renamed, Instruction.mutatedArgument?_bind_ref]
  have forms := suits.mutatedArgument?_sourceCall flat plain isCall hasInfo
  rw [Memory.exec_call isCall, Memory.exec_call isCallNew]
  cases mutated : node.toInstruction.mutatedArgument? rules with
  | none =>
      obtain ⟨changed, isPure⟩ : form.changed = [] ∧
          (sourceCall info form node).mutatedArgument? rules = none := by
        rcases forms with ⟨changed, isPure⟩ | ⟨changed, same⟩
        · exact ⟨by rw [changed, mutated]; rfl, isPure⟩
        · exact ⟨changed, same.trans mutated⟩
      have placed : node.writePlacement rules = .fresh := by
        rw [Node.writePlacement, mutated]
      have placedNew : new.writePlacement rules = .fresh := by
        rw [Node.writePlacement, written, isPure]
        rfl
      rw [grows mutated, changed]
      exact ⟨_, _, _, _, Memory.call_fresh placed computed, Memory.call_fresh placedNew computedNew,
        rfl, rfl, simulates.allocate owned ownedNew isNew isNewName value⟩
  | some target =>
      have isTarget := inputs target (Instruction.mem_inputs_of_mutatedArgument? mutated)
      obtain ⟨cell, other, found, foundNew, linked⟩ := simulates.agrees.places target isTarget
      have placed : node.writePlacement rules = .into target := by
        rw [Node.writePlacement, mutated]
      rw [stays (by rw [mutated]; exact Option.some_ne_none _)]
      rcases forms with ⟨changed, isPure⟩ | ⟨changed, same⟩
      · have placedNew : new.writePlacement rules = .fresh := by
          rw [Node.writePlacement, written, isPure]
          rfl
        have rebound :
            env.rebindAll form.changed (.ref new.id) = env.insert target (.ref new.id) := by
          have isBound : env.contains target = true := by
            rw [Std.ExtTreeMap.contains_eq_isSome_getElem?, simulates.bound target isTarget]
            rfl
          rw [changed, mutated]
          exact if_pos isBound
        rw [rebound]
        exact ⟨_, _, _, _, Memory.call_into placed computed found,
          Memory.call_fresh placedNew computedNew, rfl, rfl,
          simulates.rebind ownedNew isNew isNewName isTarget found value⟩
      · have placedNew : new.writePlacement rules = .into (rename target) := by
          rw [Node.writePlacement, written, same, mutated]
          rfl
        rw [changed]
        exact ⟨_, _, _, _, Memory.call_into placed computed found,
          Memory.call_into placedNew computedNew foundNew, rfl, rfl,
          simulates.overwrite isNew isNewName found linked value⟩

end Simulates

/-- The nodes that later nodes may read: no outputs, and no calls that change an argument. -/
def readable (rules : Rules) (visited : List Node) : Set NodeId :=
  {id | ∃ node ∈ visited, node.id = id ∧ node.op ≠ .output ∧
    node.toInstruction.mutatedArgument? rules = none}

theorem readable_concat {rules : Rules} {visited : List Node} {node : Node}
    (notOutput : node.op ≠ .output)
    (unchanged : node.toInstruction.mutatedArgument? rules = none) :
    readable rules (visited ++ [node]) = insert node.id (readable rules visited) := by
  ext id
  constructor
  · rintro ⟨other, member, rfl, rest⟩
    rcases List.mem_append.mp member with earlier | isNode
    · exact Or.inr ⟨other, earlier, rfl, rest⟩
    · exact Or.inl (congrArg Node.id (List.mem_singleton.mp isNode))
  · rintro (rfl | ⟨other, earlier, rest⟩)
    · exact ⟨node, List.mem_append_right _ (List.mem_singleton_self _), rfl, notOutput, unchanged⟩
    · exact ⟨other, List.mem_append_left _ earlier, rest⟩

theorem readable_concat_of_not {rules : Rules} {visited : List Node} {node : Node}
    (unreadable : node.op = .output ∨ node.toInstruction.mutatedArgument? rules ≠ none) :
    readable rules (visited ++ [node]) = readable rules visited := by
  ext id
  constructor
  · rintro ⟨other, member, rfl, notOutput, unchanged⟩
    rcases List.mem_append.mp member with earlier | isNode
    · exact ⟨other, earlier, rfl, notOutput, unchanged⟩
    · obtain rfl := List.mem_singleton.mp isNode
      exact absurd unchanged (unreadable.resolve_left notOutput)
  · rintro ⟨other, earlier, rest⟩
    exact ⟨other, List.mem_append_left _ earlier, rest⟩

/-- The run of the new graph has come as far as the run of the visited nodes. -/
structure InStep (rules : Rules) (meaning : Op → Operands V → V) (content : Cell → V)
    (visited : List Node) (graph : Graph) (env : Env) (left right : Memory V) : Prop where
  ran : visited.foldlM (Memory.exec (.withWrites rules meaning)) { content } = .ok left
  ranNew : graph.nodes.foldlM (Memory.exec (.withWrites rules meaning)) { content } = .ok right
  simulates : ∃ rename link, Simulates (readable rules visited) {id | id ∈ visited.map Node.id}
    {id | id ∈ graph.ids} env rename link left right
  owned : left.Owned {id | id ∈ visited.map Node.id}
  ownedNew : right.Owned {id | id ∈ graph.ids}
  outputs : left.outputs = right.outputs
  results : (∃ node ∈ visited, node.op = .output) → left.outputs.isSome = true

namespace InStep

variable {rules : Rules} {meaning : Op → Operands V → V} {content : Cell → V}
variable {visited : List Node} {graph : Graph} {env : Env} {left right : Memory V}

theorem start : InStep rules meaning content [] {} ∅ { content } { content } where
  ran := rfl
  ranNew := rfl
  simulates := by
    have empty : readable rules [] = ∅ := by simp [readable]
    rw [empty]
    exact ⟨_, _, Simulates.start content ∅⟩
  owned := fun _ _ placed => by cases placed
  ownedNew := fun _ _ placed => by cases placed
  outputs := rfl
  results := fun ⟨_, member, _⟩ => absurd member List.not_mem_nil

/-- Both runs take a step. -/
theorem step {node new : Node} {nextGraph : Graph} {nextEnv : Env} {l r : Memory V}
    {rename : NodeId → NodeId} {link : Cell → Cell → Prop}
    (inStep : InStep rules meaning content visited graph env left right)
    (nodes : nextGraph.nodes = graph.nodes ++ [new])
    (success : left.exec (.withWrites rules meaning) node = .ok l)
    (successNew : right.exec (.withWrites rules meaning) new = .ok r)
    (simulates : Simulates (readable rules (visited ++ [node]))
      (insert node.id {id | id ∈ visited.map Node.id}) (insert new.id {id | id ∈ graph.ids}) nextEnv
      rename link l r)
    (outputs : l.outputs = r.outputs)
    (results : node.op = .output ∨ left.outputs.isSome = true → l.outputs.isSome = true) :
    InStep rules meaning content (visited ++ [node]) nextGraph nextEnv l r := by
  have ids : {id | id ∈ (visited ++ [node]).map Node.id} =
      insert node.id {id | id ∈ visited.map Node.id} := by
    ext id
    simp [or_comm]
  have idsNew : {id | id ∈ nextGraph.ids} = insert new.id {id | id ∈ graph.ids} := by
    ext id
    simp [Graph.ids, nodes, or_comm]
  refine ⟨?_, ?_, ⟨rename, link, ?_⟩, ?_, ?_, outputs, ?_⟩
  · exact Memory.run_split inStep.ran success rfl
  · rw [nodes]
    exact Memory.run_split inStep.ranNew successNew rfl
  · rw [ids, idsNew]
    exact simulates
  · rw [ids]
    exact inStep.owned.exec success
  · rw [idsNew]
    exact inStep.ownedNew.exec successNew
  · rintro ⟨other, member, isOutput⟩
    rcases List.mem_append.mp member with earlier | isNode
    · exact results (Or.inr (inStep.results ⟨other, earlier, isOutput⟩))
    · obtain rfl := List.mem_singleton.mp isNode
      exact results (Or.inl isOutput)

end InStep

end Purifier

/-! ### Purification as a whole -/

/-- Every call is plain, and nothing reads the result of a call that changes an argument. -/
structure Graph.Plain (rules : Rules) (nodes : List Node) : Prop where
  calls : ∀ node ∈ nodes, node.op.isCall = true → node.toInstruction.Plain rules
  unread : ∀ node ∈ nodes, node.toInstruction.mutatedArgument? rules ≠ none →
    ∀ other ∈ nodes, other.id ≠ node.id → node.id ∉ other.inputs

namespace Purifier

variable {V : Type} {rules : Rules}

/-- A node reads only what is readable. -/
theorem mem_readable {visited rest : List Node} {node : Node}
    (valid : Graph.Valid (visited ++ node :: rest)) (absent : node.id ∉ visited.map Node.id)
    (plain : Graph.Plain rules (visited ++ node :: rest)) :
    ∀ input ∈ node.inputs, input ∈ readable rules visited := by
  intro input isInput
  obtain ⟨-, reading, -⟩ := Graph.closed_append.mp valid.closed
  rw [Set.empty_union] at reading
  obtain ⟨source, isSource, rfl⟩ := List.mem_map.mp (reading input isInput)
  refine ⟨source, isSource, rfl, valid.arranged.not_output source isSource, ?_⟩
  by_contra changes
  refine plain.unread source (List.mem_append_left _ isSource) changes node
    (List.mem_append_right _ (List.mem_cons_self ..)) ?_ isInput
  intro same
  exact absent (same ▸ List.mem_map_of_mem isSource)

theorem mem_inputs_of_mem_sourceCall {info : ValueInfo} {form : PureForm} {node : Node}
    {input : NodeId} (isInput : input ∈ (sourceCall info form node).inputs) :
    input ∈ node.inputs := by
  rcases Instruction.mem_inputs.mp isInput with inArgs | inKwargs
  · exact Instruction.mem_inputs.mpr (Or.inl inArgs)
  · have inKept : input ∈ (form.keptKwargs node.kwargs).refs := inKwargs
    refine Instruction.mem_inputs.mpr (Or.inr ?_)
    unfold PureForm.keptKwargs at inKept
    split at inKept
    · exact Kwargs.mem_refs_of_mem_refs_erase inKept
    · exact inKept

theorem InStep.visit {meaning : Op → Operands V → V} {content : Cell → V} {visited rest : List Node}
    {node : Node} {graph nextGraph : Graph} {env nextEnv : Env} {left right : Memory V}
    (inStep : InStep rules meaning content visited graph env left right)
    (stage : Stage visited graph env) (visit : Visit rules node graph env nextGraph nextEnv)
    (valid : Graph.Valid (visited ++ node :: rest)) (absent : node.id ∉ visited.map Node.id)
    (plain : Graph.Plain rules (visited ++ node :: rest)) (flat : rules.Flat)
    (respects : rules.Respects meaning) :
    ∃ l r, InStep rules meaning content (visited ++ [node]) nextGraph nextEnv l r := by
  have inputs := mem_readable valid absent plain
  have isNewName := stage.wellFormed.nextId_not_mem
  obtain ⟨rename, link, simulates⟩ := inStep.simulates
  cases visit with
  | @copied instruction noCall found =>
      obtain ⟨-, rfl⟩ := Instruction.traverse_eq_ok_iff.mp found
      have nodes := stage.nodes_emit (node.toInstruction.bind (Argument.total env.value))
        node.copyHint
      by_cases isOutput : node.op = .output
      · obtain ⟨outputs, read, readNew⟩ := simulates.agrees.read (Argument.total env.value) inputs
          fun input isInput => simulates.total_value (inputs input isInput)
        have concluded := simulates.conclude absent isNewName outputs
        rw [← readable_concat_of_not (Or.inl isOutput)] at concluded
        exact ⟨_, _, inStep.step nodes (Memory.exec_output isOutput read)
          (Memory.exec_output isOutput readNew) concluded rfl fun _ => rfl⟩
      · have unchanged : node.toInstruction.mutatedArgument? rules = none := by
          rw [Instruction.mutatedArgument?, noCall]
          rfl
        have entered := simulates.enter absent isNewName
        rw [← readable_concat isOutput unchanged] at entered
        exact ⟨_, _, inStep.step nodes (Memory.exec_leaf noCall isOutput)
          (Memory.exec_leaf noCall isOutput) entered inStep.outputs
          fun results => results.resolve_left isOutput⟩
  | folded isCall hasInfo suits isRead =>
      have plainCall := plain.calls node (List.mem_append_right _ (List.mem_cons_self ..)) isCall
      exact absurd isRead (suits.op_ne_getAttribute flat plainCall)
  | @called info form args kwargs isCall hasInfo suits foundArgs foundKwargs =>
      have plainCall := plain.calls node (List.mem_append_right _ (List.mem_cons_self ..)) isCall
      have notOutput : node.op ≠ .output := (Op.isInner_of_isCall isCall).2
      let new := graph.newNode (pureCall info form args kwargs) none
      have renamed : new.toInstruction =
          (sourceCall info form node).bind fun target => .ref (rename target) := by
        obtain ⟨-, same⟩ := Instruction.traverse_eq_ok_iff.mp
          (traverse_sourceCall info foundArgs foundKwargs)
        refine same.symm.trans (Instruction.bind_congr fun input isInput => ?_)
        exact simulates.total_value (inputs input (mem_inputs_of_mem_sourceCall isInput))
      have isNewCall : new.id ∉ {id | id ∈ graph.ids} := isNewName
      obtain ⟨rename', link', l, r, success, successNew, outputs, outputsNew, next⟩ :=
        simulates.call inStep.owned inStep.ownedNew absent isNewCall flat respects plainCall isCall
          hasInfo suits inputs renamed (fun unchanged => readable_concat notOutput unchanged)
          (fun changes => readable_concat_of_not (Or.inr changes))
      refine ⟨l, r, inStep.step (stage.nodes_emit _ _) success successNew next ?_ ?_⟩
      · rw [outputs, outputsNew, inStep.outputs]
      · intro results
        rw [outputs]
        exact results.resolve_left notOutput

end Purifier

/-- Purification under rules that purify no function twice keeps the results of a plain graph. -/
theorem purify_evaluate {V : Type} {rules : Rules} {program : Program} {graph : Graph}
    {tally : Tally} {meaning : Op → Operands V → V} (wellFormed : program.graph.WellFormed)
    (valid : Graph.Valid program.graph.nodes) (plain : Graph.Plain rules program.graph.nodes)
    (flat : rules.Flat) (respects : rules.Respects meaning)
    (success : (purify rules program).outcome = .ok (graph, tally)) (content : Cell → V) :
    ∃ outputs contents contents',
      Memory.evaluate (.withWrites rules meaning) content program.graph.nodes =
          .ok (outputs, contents) ∧
        Memory.evaluate (.withWrites rules meaning) content graph.nodes =
          .ok (outputs, contents') := by
  obtain ⟨env, stage, left, right, inStep⟩ := @purify_induction rules program
    (fun visited graph env => Purifier.Stage visited graph env ∧
      ∃ left right, Purifier.InStep rules meaning content visited graph env left right)
    (by
      rintro visited node rest graph env nextGraph nextEnv split ⟨stage, left, right, inStep⟩ visit
      have absent := wellFormed.not_mem_before split
      rw [split] at valid plain
      exact ⟨stage.visit visit, inStep.visit stage visit valid absent plain flat respects⟩)
    graph tally ⟨Purifier.stage_start, _, _, Purifier.InStep.start⟩ success
  obtain ⟨before, output, split, isOutput⟩ := valid.arranged.exists_output
  have isSome := inStep.results ⟨output, by rw [split]; simp, isOutput⟩
  obtain ⟨outputs, found⟩ := Option.isSome_iff_exists.mp isSome
  exact ⟨outputs, _, _, Memory.evaluate_of_run inStep.ran found,
    Memory.evaluate_of_run inStep.ranNew (inStep.outputs ▸ found)⟩

/-- Purification under the standard rules changes no result of a graph whose calls each ask for work
in place in at most one way and in which nothing reads the result of a call that changes an
argument, whatever the operations compute and whatever the inputs and attributes hold to begin
with. -/
theorem purification_preserves_results {V : Type} {program : Program} {graph : Graph}
    {tally : Tally} {meaning : Op → Operands V → V} (wellFormed : program.graph.WellFormed)
    (valid : program.graph.validate = .ok ()) (plain : Graph.Plain .standard program.graph.nodes)
    (respects : Rules.standard.Respects meaning)
    (success : (purify .standard program).outcome = .ok (graph, tally)) (content : Cell → V) :
    ∃ outputs contents contents',
      Memory.evaluate (.withWrites .standard meaning) content program.graph.nodes =
          .ok (outputs, contents) ∧
        Memory.evaluate (.withWrites .standard meaning) content graph.nodes =
          .ok (outputs, contents') :=
  purify_evaluate wellFormed (Graph.validate_eq_ok_iff.mp valid) plain Rules.flat_standard respects
    success content

/-- A value and an input are each changed in place, and both are results.  The change of the value
is purified; the change of the input stays. -/
def changedInPlace : Program where
  graph :=
    { nodes :=
        [{ op := .placeholder, id := ⟨0⟩, name := "input" },
          { op := .callFunction ⟨"torch.exp"⟩, args := [.ref ⟨0⟩], info := some {}, id := ⟨1⟩,
            name := "exp" },
          { op := .callFunction ⟨"torch.relu_"⟩, args := [.ref ⟨1⟩], info := some {}, id := ⟨2⟩,
            name := "relu_" },
          { op := .callFunction ⟨"torch.tanh_"⟩, args := [.ref ⟨0⟩],
            info := some { isMutation := true, isInputMutation := true }, id := ⟨3⟩,
            name := "tanh_" },
          { op := .output, args := [.ref ⟨1⟩, .ref ⟨0⟩], id := ⟨4⟩, name := "output" }]
      created := 5 }

theorem plain_changedInPlace : Graph.Plain .standard changedInPlace.graph.nodes where
  calls := by
    have noRead : ∀ node ∈ changedInPlace.graph.nodes,
        node.op ≠ .callFunction .getAttribute := by decide +kernel
    have oneWay : ∀ node ∈ changedInPlace.graph.nodes,
        [node.kwargs.contains Rules.inplaceKeyword, node.kwargs.contains Rules.outKeyword,
          node.toInstruction.isVariant .standard].count true ≤ 1 := by decide +kernel
    have noKeywords : ∀ node ∈ changedInPlace.graph.nodes,
        ¬(node.kwargs.contains Rules.inplaceKeyword = true ∨
          node.kwargs.contains Rules.outKeyword = true) := by decide +kernel
    exact fun node member _ => ⟨noRead node member, oneWay node member,
      fun _ present => absurd present (noKeywords node member)⟩
  unread := by decide +kernel

theorem changedInPlace_preserves_results :
    ∃ graph tally, (purify .standard changedInPlace).outcome = .ok (graph, tally) ∧
      ∃ outputs contents contents',
        Memory.evaluate (.withWrites .standard fun _ operands =>
            (operands.args.filterMap Argument.asRef?).foldr (· + ·) 1) (fun _ => 5)
            changedInPlace.graph.nodes = .ok (outputs, contents) ∧
          Memory.evaluate (.withWrites .standard fun _ operands =>
            (operands.args.filterMap Argument.asRef?).foldr (· + ·) 1) (fun _ => 5) graph.nodes =
              .ok (outputs, contents') := by
  obtain ⟨graph, tally, success⟩ : ∃ graph tally,
      (purify .standard changedInPlace).outcome = .ok (graph, tally) := ⟨_, _, rfl⟩
  exact ⟨graph, tally, success, purification_preserves_results ⟨by decide, by decide⟩ (by decide)
    plain_changedInPlace ⟨fun _ _ _ => rfl, fun _ _ _ => rfl, fun _ _ _ => rfl⟩ success _⟩

end OpGraph
