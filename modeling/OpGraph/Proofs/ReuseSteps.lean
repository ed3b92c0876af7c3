import Mathlib.Data.List.Induction
import OpGraph.Graph.ModuleCalls
import OpGraph.Proofs.Memory
import OpGraph.Proofs.Validity
import OpGraph.StorageReuse

/-!
# The steps of storage reuse

A plan for a call names one argument, the operand, whose storage is free.  The changed call reads
nothing new, computes from the same operands, and writes into the operand or into nothing
(`ReusePlan.Grants`).

The walk goes from the last node to the first.  At any time the graph consists of nodes that have
not been visited and are as they were, followed by the visited ones (`ReuseWalk.Stage`), and a visit
keeps the last unvisited node or puts the changed call in its place (`ReuseWalk.Stage.visit`).
-/

namespace OpGraph

/-- The node whose storage a call is told to use: its only argument, if it has a flag, and else its
receiver. -/
def Instruction.overwritten? (instruction : Instruction) : Option NodeId :=
  match instruction.kwargs[Rules.inplaceKeyword]? with
  | some _ =>
    (ReusePlan.onlyArgument? instruction.args
      (instruction.kwargs.erase Rules.inplaceKeyword)).bind Argument.asRef?
  | none => instruction.kwargs[Rules.outKeyword]?.bind Argument.asRef?

namespace ReusePlan

/-- The only argument of a call is its only positional or its only keyword argument. -/
theorem onlyArgument?_eq_some {args : List Arg} {kwargs : Kwargs NodeId} {argument : Arg}
    (found : onlyArgument? args kwargs = some argument) :
    (args = [argument] ∧ kwargs.toList = []) ∨
      (args = [] ∧ ∃ keyword, kwargs.toList = [(keyword, argument)]) := by
  unfold onlyArgument? at found
  rw [Kwargs.values_eq_map_snd] at found
  split at found
  · next empty =>
    obtain rfl := Option.some.inj found
    exact Or.inl ⟨rfl, List.map_eq_nil_iff.mp empty⟩
  · next single =>
    obtain rfl := Option.some.inj found
    obtain ⟨⟨keyword, value⟩, entries, same⟩ := List.map_eq_singleton_iff.mp single
    exact Or.inr ⟨rfl, keyword, by rw [entries, ← same]⟩
  · cases found

theorem mem_inputs_of_onlyArgument? {instruction : Instruction} {argument : Arg}
    (found : onlyArgument? instruction.args (instruction.kwargs.erase Rules.inplaceKeyword) =
      some argument) {id : NodeId} (isRef : id ∈ argument.refs) : id ∈ instruction.inputs := by
  rcases onlyArgument?_eq_some found with ⟨args, -⟩ | ⟨-, keyword, single⟩
  · refine Instruction.mem_inputs.mpr (Or.inl (Argument.mem_refsAll.mpr ⟨argument, ?_, isRef⟩))
    rw [args]
    exact List.mem_singleton_self _
  · have member : (keyword, argument) ∈
        (instruction.kwargs.erase Rules.inplaceKeyword).toList := by
      rw [single]
      exact List.mem_singleton_self _
    have inKwargs := Kwargs.mem_refs.mpr
      ⟨keyword, argument, Std.ExtTreeMap.mem_toList_iff_getElem?_eq_some.mp member, isRef⟩
    exact Instruction.mem_inputs.mpr (Or.inr (Kwargs.mem_refs_of_mem_refs_erase inKwargs))

/-- What a plan adds to the keyword arguments of a call, flags apart. -/
inductive Adds (kwargs : Kwargs NodeId) (operand : NodeId) : Kwargs NodeId → Prop where
  /-- A flag. -/
  | flag : Adds kwargs operand
      ((kwargs.erase Rules.inplaceKeyword).insert Rules.inplaceKeyword (.literal (.bool true)))
  /-- The operand as the place of the result. -/
  | receiver : Adds kwargs operand
      ((kwargs.erase Rules.inplaceKeyword).insert Rules.outKeyword (.ref operand))

/-- The operand leads the positional arguments, and there are no keyword arguments but flags; or it
is the only argument at all. -/
def Leads (operand : NodeId) (instruction : Instruction) : Prop :=
  (instruction.args.head? = some (.ref operand) ∧
      (instruction.kwargs.erase Rules.inplaceKeyword).toList = []) ∨
    (instruction.args = [] ∧ ∃ keyword,
      (instruction.kwargs.erase Rules.inplaceKeyword).toList = [(keyword, .ref operand)])

/-- A plan lets a call write into the storage of `operand`, if it lets the call write at all. -/
structure Grants (rules : Rules) (instruction : Instruction) (plan : ReusePlan)
    (operand : NodeId) : Prop where
  /-- The operand is read by the call. -/
  isInput : operand ∈ instruction.inputs
  /-- The changed call reads nothing new. -/
  reads : ∀ id ∈ (plan.apply instruction).inputs, id ∈ instruction.inputs
  /-- The changed call computes from the same arguments. -/
  dataKwargs : (plan.apply instruction).dataKwargs = instruction.dataKwargs
  /-- If the call wrote into an argument before, it was the operand. -/
  before : ∀ target, instruction.mutatedArgument? rules = some target → target = operand
  /-- If the changed call writes into an argument, it is the operand. -/
  after : ∀ target, (plan.apply instruction).mutatedArgument? rules = some target →
    target = operand
  /-- The changed call writes into an argument if the call did before. -/
  still : (plan.apply instruction).mutatedArgument? rules = none →
    instruction.mutatedArgument? rules = none
  /-- The call is one of a function that does not have to stay pure. -/
  function : ∃ function, instruction.op = .callFunction function ∧
    rules.staysPure function = false
  /-- The operand leads the arguments of the call. -/
  leads : Leads operand instruction
  /-- The plan adds a flag or the operand as the place of the result. -/
  adds : Adds instruction.kwargs operand plan.kwargs
  /-- The changed call is told to use the storage of the operand. -/
  overwrites : (plan.apply instruction).overwritten? = some operand

theorem getElem?_erase_of_ne {kwargs : Kwargs NodeId} {keyword other : String}
    (different : keyword ≠ other) :
    (kwargs.erase keyword : Kwargs NodeId)[other]? = kwargs[other]? := by
  rw [Std.ExtTreeMap.getElem?_erase, if_neg]
  exact fun equal => different (Std.LawfulEqOrd.eq_of_compare equal)

theorem inplace_ne_out : Rules.inplaceKeyword ≠ Rules.outKeyword := by
  decide

theorem erase_insert_erase (kwargs : Kwargs NodeId) (keyword : String) (argument : Arg) :
    ((kwargs.erase keyword).insert keyword argument : Kwargs NodeId).erase keyword =
      kwargs.erase keyword := by
  rw [Kwargs.erase_insert, Kwargs.erase_eq_self Std.ExtTreeMap.getElem?_erase_self]

/-- A call that gets a flag is told to use the storage of its only argument. -/
theorem overwritten?_of_flag {instruction : Instruction} {argument : Arg} {manner : Manner}
    (only : onlyArgument? instruction.args (instruction.kwargs.erase Rules.inplaceKeyword) =
      some argument) :
    (apply ⟨(instruction.kwargs.erase Rules.inplaceKeyword).insert Rules.inplaceKeyword
      (.literal (.bool true)), manner⟩ instruction).overwritten? = argument.asRef? := by
  rw [Instruction.overwritten?, apply, Std.ExtTreeMap.getElem?_insert_self]
  dsimp only
  rw [erase_insert_erase, only, Option.bind_some]

/-- A call that gets a receiver is told to use its storage. -/
theorem overwritten?_of_receiver (instruction : Instruction) (argument : Arg) (manner : Manner) :
    (apply ⟨(instruction.kwargs.erase Rules.inplaceKeyword).insert Rules.outKeyword argument,
      manner⟩ instruction).overwritten? = argument.asRef? := by
  have noFlag : ((instruction.kwargs.erase Rules.inplaceKeyword).insert Rules.outKeyword
      argument : Kwargs NodeId)[Rules.inplaceKeyword]? = none := by
    rw [Std.ExtTreeMap.getElem?_insert, if_neg, Std.ExtTreeMap.getElem?_erase_self]
    exact fun equal => inplace_ne_out (Std.LawfulEqOrd.eq_of_compare equal).symm
  rw [Instruction.overwritten?, apply, noFlag, Std.ExtTreeMap.getElem?_insert_self,
    Option.bind_some]

theorem staysPure_of_of? {rules : Rules} {accepts : Signatures} {graph : Graph}
    {storage : Storage} {function : FunctionPath} {instruction : Instruction} {plan : ReusePlan}
    (found : of? rules accepts graph storage function instruction = some plan) :
    rules.staysPure function = false := by
  by_contra pure
  rw [of?, if_pos (Bool.of_not_eq_false pure)] at found
  cases found

/-- The operand of a plan is in free storage and leads the arguments of the call. -/
theorem of?_eq_some {rules : Rules} {accepts : Signatures} {graph : Graph} {storage : Storage}
    {function : FunctionPath} {instruction : Instruction} {plan : ReusePlan}
    (found : of? rules accepts graph storage function instruction = some plan) :
    ∃ operand, storage.isFree operand = true ∧ Adds instruction.kwargs operand plan.kwargs ∧
      Leads operand instruction ∧ (plan.apply instruction).overwritten? = some operand := by
  unfold of? at found
  split at found
  · cases found
  · dsimp only at found
    split at found
    · next argument only =>
      unfold unary? at found
      split at found
      · next operand =>
        have leads : Leads operand instruction := by
          rcases onlyArgument?_eq_some only with ⟨args, empty⟩ | keyword
          · exact Or.inl ⟨by rw [args]; rfl, empty⟩
          · exact Or.inr keyword
        split at found
        · next free =>
          split at found
          · obtain rfl := Option.some.inj found
            exact ⟨operand, free, .flag, leads, overwritten?_of_flag only⟩
          · split at found
            · obtain rfl := Option.some.inj found
              exact ⟨operand, free, .receiver, leads, overwritten?_of_receiver _ _ _⟩
            · cases found
        · cases found
      · cases found
    · unfold binary? at found
      split at found
      · next first second args =>
        split at found
        · next admitted =>
          simp only [Bool.and_eq_true] at admitted
          obtain ⟨⟨⟨empty, -⟩, -⟩, admits⟩ := admitted
          unfold admitsBinary at admits
          split at admits
          · next operand shape _ =>
            simp only [Bool.and_eq_true] at admits
            obtain rfl := Option.some.inj found
            refine ⟨operand, admits.1.1, .receiver, Or.inl ⟨by rw [args]; rfl, ?_⟩,
              overwritten?_of_receiver _ _ _⟩
            rw [Std.ExtTreeMap.isEmpty_iff.mp empty]
            exact Std.ExtTreeMap.toList_eq_nil_iff.mpr rfl
          · cases admits
        · cases found
      · cases found

/-- A leading operand is read, and no other argument could be written into. -/
theorem Leads.only {instruction : Instruction} {operand : NodeId}
    (leads : Leads operand instruction) :
    operand ∈ instruction.inputs ∧
      (∀ target, instruction.firstRef? = some target → target = operand) ∧
        ∀ argument, instruction.kwargs[Rules.outKeyword]? = some argument →
          argument = .ref operand := by
  have entry : ∀ argument, instruction.kwargs[Rules.outKeyword]? = some argument →
      (Rules.outKeyword, argument) ∈ (instruction.kwargs.erase Rules.inplaceKeyword).toList := by
    intro argument found
    apply Std.ExtTreeMap.mem_toList_iff_getElem?_eq_some.mpr
    rw [getElem?_erase_of_ne inplace_ne_out, found]
  rcases leads with ⟨head, empty⟩ | ⟨args, keyword, single⟩
  · have first : instruction.firstRef? = some operand := by
      rw [Instruction.firstRef?, head]
      rfl
    refine ⟨Instruction.mem_inputs_of_firstRef? first, ?_, ?_⟩
    · intro target found
      rw [first] at found
      exact (Option.some.inj found).symm
    · intro argument found
      have member := entry argument found
      rw [empty] at member
      exact absurd member List.not_mem_nil
  · refine ⟨?_, ?_, ?_⟩
    · have member : (keyword, .ref operand) ∈
          (instruction.kwargs.erase Rules.inplaceKeyword).toList := by
        rw [single]
        exact List.mem_singleton_self _
      have isRef : operand ∈ Kwargs.refs (instruction.kwargs.erase Rules.inplaceKeyword) :=
        Kwargs.mem_refs.mpr ⟨keyword, _,
          Std.ExtTreeMap.mem_toList_iff_getElem?_eq_some.mp member, List.mem_singleton_self _⟩
      exact Instruction.mem_inputs.mpr (Or.inr (Kwargs.mem_refs_of_mem_refs_erase isRef))
    · intro target first
      rw [Instruction.firstRef?, args] at first
      cases first
    · intro argument found
      have member := entry argument found
      rw [single, List.mem_singleton] at member
      exact (Prod.mk.inj member).2

/-- The keyword arguments of a planned call, apart from those that say where the result is put, are
those of the call. -/
theorem Adds.dataKwargs_eq {kwargs changed : Kwargs NodeId} {operand : NodeId}
    (adds : Adds kwargs operand changed) :
    (changed.erase Rules.inplaceKeyword).erase Rules.outKeyword =
      (kwargs.erase Rules.inplaceKeyword).erase Rules.outKeyword := by
  apply Std.ExtTreeMap.ext_getElem?
  intro keyword
  cases adds with
  | flag =>
      simp only [Std.ExtTreeMap.getElem?_erase, Std.ExtTreeMap.getElem?_insert]
      grind
  | receiver =>
      simp only [Std.ExtTreeMap.getElem?_erase, Std.ExtTreeMap.getElem?_insert]
      grind

theorem Adds.mem_refs {kwargs changed : Kwargs NodeId} {operand target : NodeId}
    (adds : Adds kwargs operand changed) (isRef : target ∈ changed.refs) :
    target = operand ∨ target ∈ kwargs.refs := by
  obtain ⟨keyword, argument, found, inArgument⟩ := Kwargs.mem_refs.mp isRef
  cases adds with
  | flag =>
      rw [Std.ExtTreeMap.getElem?_insert] at found
      split at found
      · obtain rfl := Option.some.inj found
        exact absurd inArgument List.not_mem_nil
      · exact Or.inr (Kwargs.mem_refs_of_mem_refs_erase
          (Kwargs.mem_refs.mpr ⟨keyword, argument, found, inArgument⟩))
  | receiver =>
      rw [Std.ExtTreeMap.getElem?_insert] at found
      split at found
      · obtain rfl := Option.some.inj found
        exact Or.inl (List.mem_singleton.mp inArgument)
      · exact Or.inr (Kwargs.mem_refs_of_mem_refs_erase
          (Kwargs.mem_refs.mpr ⟨keyword, argument, found, inArgument⟩))

/-- A planned call keeps its keyword arguments but for its flag, if its receiver was the operand. -/
theorem Adds.getElem?_of_erase {kwargs changed : Kwargs NodeId} {operand : NodeId}
    (adds : Adds kwargs operand changed)
    (receiver : ∀ argument, kwargs[Rules.outKeyword]? = some argument → argument = .ref operand)
    {keyword : String} {argument : Arg}
    (found : (kwargs.erase Rules.inplaceKeyword : Kwargs NodeId)[keyword]? = some argument) :
    changed[keyword]? = some argument := by
  cases adds with
  | flag =>
      rw [Std.ExtTreeMap.getElem?_insert, if_neg, found]
      intro equal
      rw [← Std.LawfulEqOrd.eq_of_compare equal, Std.ExtTreeMap.getElem?_erase_self] at found
      cases found
  | receiver =>
      rw [Std.ExtTreeMap.getElem?_insert]
      split
      · next equal =>
        rw [← Std.LawfulEqOrd.eq_of_compare equal, getElem?_erase_of_ne inplace_ne_out] at found
        rw [receiver argument found]
      · exact found

/-- The receiver of a planned call is that of the call, or the operand. -/
theorem Adds.getElem?_out {kwargs changed : Kwargs NodeId} {operand : NodeId}
    (adds : Adds kwargs operand changed) :
    changed[Rules.outKeyword]? = some (.ref operand) ∨
      (changed[Rules.outKeyword]? = kwargs[Rules.outKeyword]? ∧
        changed[Rules.inplaceKeyword]? = some (.literal (.bool true))) := by
  cases adds with
  | flag =>
      refine Or.inr ⟨?_, Std.ExtTreeMap.getElem?_insert_self⟩
      rw [Std.ExtTreeMap.getElem?_insert, if_neg, getElem?_erase_of_ne inplace_ne_out]
      exact fun equal => inplace_ne_out (Std.LawfulEqOrd.eq_of_compare equal)
  | receiver => exact Or.inl Std.ExtTreeMap.getElem?_insert_self

/-- Every plan for a function call grants it the storage of an operand that is free. -/
theorem grants_of_of?_eq_some {rules : Rules} {accepts : Signatures} {graph : Graph}
    {storage : Storage} {function : FunctionPath} {instruction : Instruction} {plan : ReusePlan}
    (isFunction : instruction.op = .callFunction function)
    (found : of? rules accepts graph storage function instruction = some plan) :
    ∃ operand, storage.isFree operand = true ∧ plan.Grants rules instruction operand := by
  obtain ⟨operand, free, adds, leads, overwrites⟩ := of?_eq_some found
  obtain ⟨isInput, onlyFirst, onlyOut⟩ := leads.only
  have out := adds.getElem?_out
  refine ⟨operand, free, isInput, ?_, adds.dataKwargs_eq, ?_, ?_, ?_,
    ⟨function, isFunction, staysPure_of_of? found⟩, leads, adds, overwrites⟩
  · intro id member
    rcases Instruction.mem_inputs.mp member with inArgs | inKwargs
    · exact Instruction.mem_inputs.mpr (Or.inl inArgs)
    · rcases adds.mem_refs inKwargs with rfl | old
      · exact isInput
      · exact Instruction.mem_inputs.mpr (Or.inr old)
  · intro target written
    rcases Instruction.mutatedArgument?_eq_some written with receiver | first
    · obtain ⟨argument, isOut, isRef⟩ := Option.bind_eq_some_iff.mp receiver
      rw [onlyOut argument isOut] at isRef
      exact (Option.some.inj isRef).symm
    · exact onlyFirst target first
  · intro target written
    rcases Instruction.mutatedArgument?_eq_some written with receiver | first
    · obtain ⟨argument, isOut, isRef⟩ := Option.bind_eq_some_iff.mp receiver
      have same : argument = .ref operand := by
        rcases out with added | ⟨kept, -⟩
        · exact Option.some.inj (isOut.symm.trans added)
        · exact onlyOut argument (kept.symm.trans isOut)
      rw [same] at isRef
      exact (Option.some.inj isRef).symm
    · exact onlyFirst target first
  · intro silent
    by_cases isCall : instruction.op.isCall
    · have applied : (plan.apply instruction).op.isCall = true := isCall
      rw [Instruction.mutatedArgument?, if_pos applied] at silent
      rcases out with added | ⟨kept, flag⟩
      · have receiver : (plan.apply instruction).kwargs[Rules.outKeyword]? =
            some (.ref operand) := added
        rw [receiver] at silent
        cases silent
      · have receiver : (plan.apply instruction).kwargs[Rules.outKeyword]? =
            instruction.kwargs[Rules.outKeyword]? := kept
        have flagged : (plan.apply instruction).isFlagged = true := by
          have found : (plan.apply instruction).kwargs[Rules.inplaceKeyword]? =
              some (.literal (.bool true)) := flag
          rw [Instruction.isFlagged, found]
          rfl
        rw [receiver, flagged] at silent
        rw [Instruction.mutatedArgument?, if_pos isCall]
        split at silent
        · cases silent
        · have noFirst : instruction.firstRef? = none := silent
          rw [noFirst]
          simp
    · rw [Instruction.mutatedArgument?, if_neg isCall]

end ReusePlan

/-- The plan for a node, if it is a function call that can write into the storage of an argument. -/
def Node.reusePlan? (rules : Rules) (accepts : Signatures) (graph : Graph) (storage : Storage)
    (node : Node) : Option ReusePlan :=
  match node.op with
  | .callFunction function => ReusePlan.of? rules accepts graph storage function node.toInstruction
  | _ => none

theorem Node.reusePlan?_eq_some {rules : Rules} {accepts : Signatures} {graph : Graph}
    {storage : Storage} {node : Node} {plan : ReusePlan}
    (found : node.reusePlan? rules accepts graph storage = some plan) :
    ∃ function, node.op = .callFunction function ∧
      ReusePlan.of? rules accepts graph storage function node.toInstruction = some plan := by
  unfold reusePlan? at found
  split at found
  · next function isFunction => exact ⟨function, isFunction, found⟩
  · cases found

/-- A plan for a node grants it the storage of an operand that is free. -/
theorem Node.grants_of_reusePlan? {rules : Rules} {accepts : Signatures} {graph : Graph}
    {storage : Storage} {node : Node} {plan : ReusePlan}
    (found : node.reusePlan? rules accepts graph storage = some plan) :
    node.op.isCall = true ∧ ∃ operand, storage.isFree operand = true ∧
      plan.Grants rules node.toInstruction operand := by
  obtain ⟨function, isFunction, planned⟩ := reusePlan?_eq_some found
  exact ⟨by rw [isFunction]; rfl, ReusePlan.grants_of_of?_eq_some isFunction planned⟩

/-! ### Steps that do not fail -/

namespace Graph

/-- Creating a node and recording then what is known of its value is creating it with the record. -/
theorem modify_emitBefore {graph : Graph} (wellFormed : graph.WellFormed) (anchor : NodeId)
    (instruction : Instruction) :
    (graph.emitBefore anchor { instruction with info := none }).modify graph.nextId
        (fun node => { node with info := instruction.info }) =
      .ok (graph.emitBefore anchor instruction) := by
  let record (node : Node) : Node :=
    if node.id = graph.nextId then
      { toInstruction := { node.toInstruction with info := instruction.info }
        id := graph.nextId
        name := node.name }
    else node
  let bare := graph.newNode { instruction with info := none } none
  have others : ∀ node ∈ graph.nodes, record node = node := by
    intro node member
    refine if_neg fun same => wellFormed.nextId_not_mem ?_
    exact same ▸ List.mem_map_of_mem member
  have placed : ∀ nodes : List Node, (∀ node ∈ nodes, record node = node) →
      (placeBefore anchor bare nodes).map record =
        placeBefore anchor (graph.newNode instruction none) nodes := by
    intro nodes fixed
    have here : record bare = graph.newNode instruction none := if_pos rfl
    induction nodes with
    | nil => rw [placeBefore, placeBefore, List.map_singleton, here]
    | cons node rest ih =>
        obtain ⟨first, later⟩ := List.forall_mem_cons.mp fixed
        have same : rest.map record = rest := by
          rw [List.map_congr_left later, List.map_id']
        rw [placeBefore, placeBefore]
        split
        · rw [List.map_cons, List.map_cons, here, first, same]
        · rw [List.map_cons, first, ih later]
  have isThere : (graph.emitBefore anchor { instruction with info := none }).contains
      graph.nextId = true := by
    rw [contains, find?, List.find?_isSome]
    refine ⟨bare, ?_, by simp [bare, newNode]⟩
    exact (nodes_emit_perm { graph with insertionPoint := some anchor } _ none).mem_iff.mpr
      List.mem_cons_self
  rw [modify, if_pos isThere]
  refine congrArg Except.ok ?_
  have nodes : (graph.emitBefore anchor { instruction with info := none }).nodes.map record =
      (graph.emitBefore anchor instruction).nodes := placed graph.nodes others
  show ({ graph.emitBefore anchor { instruction with info := none } with
    nodes := (graph.emitBefore anchor { instruction with info := none }).nodes.map record } :
      Graph) = _
  rw [nodes]
  rfl

/-- Once its readers read something else, a node is not read. -/
theorem users_redirect {old : NodeId} {new : Arg} (graph : Graph) (absent : old ∉ new.refs) :
    (graph.redirect old new).users old = [] := by
  rw [users, List.map_eq_nil_iff, List.filter_eq_nil_iff]
  intro reader member reads
  obtain ⟨source, -, rfl⟩ := List.mem_map.mp member
  have isInput : old ∈ (source.redirect old new).inputs := List.contains_iff_mem.mp reads
  rcases Node.mem_inputs_redirect isInput with ⟨-, different⟩ | ⟨-, inNew⟩
  · exact different rfl
  · exact absent inNew

/-- A node can be removed once its readers read something else. -/
theorem erase_redirect {graph : Graph} {old : NodeId} {new : Arg} (isThere : old ∈ graph.ids)
    (absent : old ∉ new.refs) :
    (graph.redirect old new).erase old = .ok ((graph.redirect old new).drop old) := by
  obtain ⟨node, found⟩ : ∃ node, (graph.redirect old new).find? old = some node := by
    rw [← ids_redirect graph old new] at isThere
    obtain ⟨node, member, same⟩ := List.mem_map.mp isThere
    rw [← Option.isSome_iff_exists, find?, List.find?_isSome]
    exact ⟨node, member, by simpa using same⟩
  have got : (graph.redirect old new).get old = .ok node := by
    rw [Graph.get, found]
  rw [erase, got, users_redirect graph absent]
  rfl

/-- A node of a well-formed graph can be exchanged. -/
theorem exchange_eq {graph : Graph} (wellFormed : graph.WellFormed) {old : NodeId}
    (isThere : old ∈ graph.ids) (instruction : Instruction) :
    graph.exchange old instruction = (graph.supersede old instruction, .ok ()) := by
  have kept : old ∈ (graph.emitBefore old instruction).ids := by
    have ids := (nodes_emit_perm { graph with insertionPoint := some old } instruction none).map
      Node.id
    exact ids.mem_iff.mpr (List.mem_cons_of_mem _ isThere)
  have isNew : old ∉ (Argument.ref graph.nextId).refs := by
    intro isRef
    exact wellFormed.nextId_not_mem (List.mem_singleton.mp isRef ▸ isThere)
  simp only [exchange, modify_emitBefore wellFormed, erase_redirect kept isNew, supersede]

theorem mem_ids_supersede {graph : Graph} {old id : NodeId} (isThere : id ∈ graph.ids)
    (different : id ≠ old) (instruction : Instruction) :
    id ∈ (graph.supersede old instruction).ids := by
  obtain ⟨node, member, rfl⟩ := List.mem_map.mp isThere
  have placed : node ∈ (graph.emitBefore old instruction).nodes :=
    @mem_emit { graph with insertionPoint := some old } node member instruction none
  have redirected := mem_redirect placed old (.ref graph.nextId)
  exact List.mem_map.mpr ⟨_, List.mem_filter.mpr ⟨redirected, by simpa using different⟩, rfl⟩

end Graph

namespace ReuseWalk

/-- Change a call if it can write into the storage of an argument, when no step fails. -/
def change (rules : Rules) (accepts : Signatures) (walk : ReuseWalk) (node : Node) : ReuseWalk :=
  match node.op with
  | .callFunction function =>
    match ReusePlan.of? rules accepts walk.graph walk.storage function node.toInstruction with
    | some plan =>
      { walk with
        graph := walk.graph.supersede node.id (plan.apply node.toInstruction)
        changes := walk.changes ++ [⟨node.name, function, plan.manner⟩] }
    | none => walk
  | _ => walk

/-- Visit the node with the given identity, when no step fails. -/
def visit (rules : Rules) (accepts : Signatures) (walk : ReuseWalk) (id : NodeId) : ReuseWalk :=
  match walk.graph.find? id with
  | some node =>
    { walk.change rules accepts node with
      storage := node.inputs.foldl Storage.read walk.storage }
  | none => walk

theorem attempt_eq {rules : Rules} {accepts : Signatures} {walk : ReuseWalk} {node : Node}
    (wellFormed : walk.graph.WellFormed) (isThere : node.id ∈ walk.graph.ids) :
    walk.attempt rules accepts node = (walk.change rules accepts node, .ok ()) := by
  cases isOp : node.op with
  | callFunction function =>
      simp only [attempt, change, isOp]
      cases ReusePlan.of? rules accepts walk.graph walk.storage function node.toInstruction with
      | some plan =>
          dsimp only
          rw [rewrite, Graph.exchange_eq wellFormed isThere]
      | none => rfl
  | placeholder | getAttr | callMethod | callModule | output => simp only [attempt, change, isOp]

theorem wellFormed_change {walk : ReuseWalk} (wellFormed : walk.graph.WellFormed) (rules : Rules)
    (accepts : Signatures) (node : Node) : (walk.change rules accepts node).graph.WellFormed := by
  unfold change
  split
  · split
    · exact wellFormed.supersede _ _
    · exact wellFormed
  · exact wellFormed

theorem mem_ids_change {walk : ReuseWalk} {node : Node} {id : NodeId}
    (isThere : id ∈ walk.graph.ids) (different : id ≠ node.id) (rules : Rules)
    (accepts : Signatures) : id ∈ (walk.change rules accepts node).graph.ids := by
  unfold change
  split
  · split
    · exact Graph.mem_ids_supersede isThere different _
    · exact isThere
  · exact isThere

theorem storage_change (rules : Rules) (accepts : Signatures) (walk : ReuseWalk) (node : Node) :
    (walk.change rules accepts node).storage = walk.storage := by
  unfold change
  split
  · split <;> rfl
  · rfl

/-- A visit of a node of a well-formed graph does not fail, and leaves the other nodes where they
are. -/
theorem step_eq {rules : Rules} {accepts : Signatures} {walk : ReuseWalk} {id : NodeId}
    (wellFormed : walk.graph.WellFormed) (isThere : id ∈ walk.graph.ids) :
    walk.step rules accepts id = (walk.visit rules accepts id, .ok ()) ∧
      (walk.visit rules accepts id).graph.WellFormed ∧
        ∀ other ∈ walk.graph.ids, other ≠ id → other ∈ (walk.visit rules accepts id).graph.ids := by
  obtain ⟨node, member, rfl⟩ := List.mem_map.mp isThere
  obtain ⟨before, after, split⟩ := List.append_of_mem member
  have found := Graph.find?_of_split wellFormed split
  rw [step, visit, Graph.get, found]
  dsimp only
  rw [attempt_eq wellFormed isThere]
  dsimp only
  rw [storage_change]
  exact ⟨rfl, wellFormed_change wellFormed rules accepts node,
    fun other isOther different => mem_ids_change isOther different rules accepts⟩

/-- A walk through nodes of a well-formed graph does not fail. -/
theorem run_eq {rules : Rules} {accepts : Signatures} {ids : List NodeId} {walk : ReuseWalk}
    (wellFormed : walk.graph.WellFormed) (areThere : ∀ id ∈ ids, id ∈ walk.graph.ids)
    (distinct : ids.Nodup) :
    run rules accepts ids walk = (ids.foldl (visit rules accepts) walk, .ok ()) := by
  induction ids generalizing walk with
  | nil => rfl
  | cons id rest ih =>
      obtain ⟨isThere, others⟩ := List.forall_mem_cons.mp areThere
      obtain ⟨absent, distinctRest⟩ := List.nodup_cons.mp distinct
      obtain ⟨stepped, wellFormedNext, kept⟩ := @step_eq rules accepts walk id wellFormed isThere
      rw [run, stepped, List.foldl_cons]
      refine ih wellFormedNext (fun other isOther => ?_) distinctRest
      exact kept other (others other isOther) fun same => absent (same ▸ isOther)

end ReuseWalk

/-- Storage reuse fails only while storage is assigned, and it has changed nothing then. -/
theorem reuseInPlace_eq {program : Program} (wellFormed : program.graph.WellFormed) (rules : Rules)
    (accepts : Signatures) :
    reuseInPlace rules accepts program =
      match Storage.ofProgram rules program with
      | .error cause => ⟨program.graph, [], .error cause⟩
      | .ok storage =>
        let walk := program.graph.ids.reverse.foldl (ReuseWalk.visit rules accepts)
          ⟨program.graph, storage, []⟩
        ⟨walk.graph, walk.changes, .ok ()⟩ := by
  rw [reuseInPlace]
  cases Storage.ofProgram rules program with
  | error cause => rfl
  | ok storage =>
      have areThere : ∀ id ∈ program.graph.ids.reverse, id ∈ program.graph.ids :=
        fun id member => List.mem_reverse.mp member
      have ran := @ReuseWalk.run_eq rules accepts _ ⟨program.graph, storage, []⟩ wellFormed
        areThere (List.nodup_reverse.mpr wellFormed.distinct)
      simp only [ran]

/-- A reuse of storage that succeeds is a walk from an assignment of storage. -/
theorem reuseStorage_eq_ok {rules : Rules} {accepts : Signatures} {program : Program}
    {graph : Graph} {calls : List ReusedCall} (wellFormed : program.graph.WellFormed)
    (success : reuseStorage rules accepts program = .ok (graph, calls)) :
    ∃ storage, Storage.ofProgram rules program = .ok storage ∧
      let walk := program.graph.ids.reverse.foldl (ReuseWalk.visit rules accepts)
        ⟨program.graph, storage, []⟩
      walk.graph = graph ∧ walk.changes = calls := by
  simp only [reuseStorage, reuseInPlace_eq wellFormed] at success
  cases placed : Storage.ofProgram rules program with
  | error cause =>
      rw [placed] at success
      cases success
  | ok storage =>
      rw [placed] at success
      exact ⟨storage, rfl, Prod.mk.inj (Except.ok.inj success)⟩

/-- Storage reuse leaves all as it was, since no storage could be assigned, or it succeeds. -/
theorem reuseInPlace_cases {program : Program} (wellFormed : program.graph.WellFormed)
    (rules : Rules) (accepts : Signatures) :
    (∃ cause, Storage.ofProgram rules program = .error cause ∧
        reuseInPlace rules accepts program = ⟨program.graph, [], .error cause⟩) ∨
      ∃ graph calls, (Storage.ofProgram rules program).isOk = true ∧
        reuseInPlace rules accepts program = ⟨graph, calls, .ok ()⟩ ∧
          reuseStorage rules accepts program = .ok (graph, calls) := by
  rw [reuseStorage, reuseInPlace_eq wellFormed]
  cases Storage.ofProgram rules program with
  | error cause => exact Or.inl ⟨cause, rfl, rfl⟩
  | ok storage => exact Or.inr ⟨_, _, rfl, rfl, rfl⟩

namespace ReuseWalk

/-- The walk has come to the end of `before`: these nodes are as they were, and `after` is what has
become of the later ones. -/
structure Stage (walk : ReuseWalk) (before after : List Node) : Prop where
  /-- The identities of the graph are in order. -/
  wellFormed : walk.graph.WellFormed
  /-- The nodes are those not visited, and what the visited ones have become. -/
  split : walk.graph.nodes = before ++ after
  /-- The graph is valid. -/
  valid : Graph.Valid (before ++ after)

/-- What a visit of the last unvisited node does. -/
inductive Visit (rules : Rules) (walk : ReuseWalk) (before after : List Node) (node : Node) :
    List Node → Prop where
  /-- The node stays as it is. -/
  | kept : Visit rules walk before after node (node :: after)
  /-- A changed call takes the place of the node. -/
  | changed {plan : ReusePlan} {operand : NodeId} (isCall : node.op.isCall = true)
      (free : walk.storage.isFree operand = true)
      (grants : plan.Grants rules node.toInstruction operand) :
      Visit rules walk before after node
        (walk.graph.newNode (plan.apply node.toInstruction) none ::
          after.map (Node.redirect node.id (.ref walk.graph.nextId)))

theorem storage_visit (rules : Rules) (accepts : Signatures) (walk : ReuseWalk) {node : Node}
    (found : walk.graph.find? node.id = some node) :
    (walk.visit rules accepts node.id).storage = node.inputs.foldl Storage.read walk.storage := by
  rw [visit, found]

theorem graph_visit (rules : Rules) (accepts : Signatures) (walk : ReuseWalk) {node : Node}
    (found : walk.graph.find? node.id = some node) :
    (walk.visit rules accepts node.id).graph = (walk.change rules accepts node).graph := by
  rw [visit, found]

/-- A node is changed if there is a plan for it. -/
theorem graph_change (rules : Rules) (accepts : Signatures) (walk : ReuseWalk) (node : Node) :
    (walk.change rules accepts node).graph =
      match node.reusePlan? rules accepts walk.graph walk.storage with
      | some plan => walk.graph.supersede node.id (plan.apply node.toInstruction)
      | none => walk.graph := by
  unfold change Node.reusePlan?
  split
  · split <;> rfl
  · rfl

/-- What a visit makes of a node and of what has become of the nodes after it. -/
def visited (walk : ReuseWalk) (after : List Node) (node : Node) : Option ReusePlan → List Node
  | some plan =>
    walk.graph.newNode (plan.apply node.toInstruction) none ::
      after.map (Node.redirect node.id (.ref walk.graph.nextId))
  | none => node :: after

/-- A visit takes one node from the unvisited ones to the visited ones. -/
theorem Stage.visit {rules : Rules} {walk : ReuseWalk} {before after : List Node} {node : Node}
    (stage : walk.Stage (before ++ [node]) after) (accepts : Signatures) :
    let later := walk.visited after node (node.reusePlan? rules accepts walk.graph walk.storage)
    Visit rules walk before after node later ∧
      (walk.visit rules accepts node.id).Stage before later ∧
        (walk.visit rules accepts node.id).storage =
          node.inputs.foldl Storage.read walk.storage := by
  have split : walk.graph.nodes = before ++ node :: after := by
    rw [stage.split, List.append_assoc]
    rfl
  have valid : Graph.Valid (before ++ node :: after) := by
    have whole := stage.valid
    rw [List.append_assoc] at whole
    exact whole
  have absent := stage.wellFormed.not_mem_before split
  have found := Graph.find?_of_split stage.wellFormed split
  have graph := graph_visit rules accepts walk found
  have storage := storage_visit rules accepts walk found
  rw [graph_change] at graph
  cases planned : node.reusePlan? rules accepts walk.graph walk.storage with
  | none =>
      rw [planned] at graph
      refine ⟨.kept, ⟨?_, ?_, valid⟩, storage⟩
      · rw [graph]
        exact stage.wellFormed
      · rw [graph]
        exact split
  | some plan =>
      rw [planned] at graph
      obtain ⟨isCall, operand, free, grants⟩ := Node.grants_of_reusePlan? planned
      have unreadHere : node.id ∉ (plan.apply node.toInstruction).inputs := fun isInput =>
        valid.closed.not_mem_own_inputs absent (grants.reads node.id isInput)
      have nodes := Graph.nodes_supersede stage.wellFormed split
        (valid.closed.not_mem_inputs absent) unreadHere
      refine ⟨.changed isCall free grants, ⟨?_, ?_, ?_⟩, storage⟩
      · rw [graph]
        exact stage.wellFormed.supersede _ _
      · rw [graph]
        exact nodes
      · have inner := Op.isInner_of_isCall isCall
        have replaced := @Graph.Valid.replace before
          [walk.graph.newNode (plan.apply node.toInstruction) none] after node
          (.ref walk.graph.nextId) valid inner (stage.wellFormed.not_mem_after split) ?_ ?_ ?_
        · rw [List.append_assoc] at replaced
          exact replaced
        · intro other member
          obtain rfl := List.mem_singleton.mp member
          exact inner
        · refine ⟨fun input isInput => ?_, trivial⟩
          have known := (Graph.closed_append.mp valid.closed).2.1 input
            (grants.reads input isInput)
          simpa using known
        · intro id isRef
          obtain rfl := List.mem_singleton.mp isRef
          simp [Graph.newNode]

/-- What holds at the start and is kept by every visit holds at the end. -/
theorem run_induction {rules : Rules} {accepts : Signatures}
    {motive : List Node → ReuseWalk → Prop} {nodes : List Node} {start : ReuseWalk}
    (initial : motive nodes start)
    (step : ∀ before node walk, motive (before ++ [node]) walk →
      motive before (walk.visit rules accepts node.id)) :
    motive [] ((nodes.map Node.id).reverse.foldl (ReuseWalk.visit rules accepts) start) := by
  induction nodes using List.reverseRecOn generalizing start with
  | nil => exact initial
  | append_singleton before node ih =>
      rw [List.map_append, List.reverse_append, List.map_singleton, List.reverse_singleton,
        List.foldl_append]
      exact ih (step before node start initial)

end ReuseWalk

section Induction

variable {rules : Rules} {accepts : Signatures} {program : Program}
variable {motive : List Node → List Node → ReuseWalk → Prop}

/-- A graph in which storage is reused is that of a walk which has visited all nodes, and has
whatever is kept when each node is visited according to its plan. -/
theorem reuseStorage_visited
    (step : ∀ before node after walk, motive (before ++ [node]) after walk →
      walk.Stage (before ++ [node]) after →
        motive before
          (walk.visited after node (node.reusePlan? rules accepts walk.graph walk.storage))
          (walk.visit rules accepts node.id))
    {graph : Graph} {calls : List ReusedCall} (wellFormed : program.graph.WellFormed)
    (valid : Graph.Valid program.graph.nodes)
    (initial : ∀ storage, Storage.ofProgram rules program = .ok storage →
      motive program.graph.nodes [] { graph := program.graph, storage, changes := [] })
    (success : reuseStorage rules accepts program = .ok (graph, calls)) :
    ∃ walk, motive [] graph.nodes walk ∧ walk.Stage [] graph.nodes ∧ walk.graph = graph := by
  obtain ⟨storage, placed, rfl, -⟩ := reuseStorage_eq_ok wellFormed success
  have start : ReuseWalk.Stage ⟨program.graph, storage, []⟩ program.graph.nodes [] := by
    refine ⟨wellFormed, (List.append_nil _).symm, ?_⟩
    rw [List.append_nil]
    exact valid
  obtain ⟨after, holds, stage⟩ := @ReuseWalk.run_induction rules accepts
    (fun before walk => ∃ after, motive before after walk ∧ walk.Stage before after)
    program.graph.nodes _ ⟨[], initial storage placed, start⟩ (by
      rintro before node walk ⟨after, holds, stage⟩
      obtain ⟨-, nextStage, -⟩ := stage.visit accepts
      exact ⟨_, step before node after walk holds stage, nextStage⟩)
  have nodes := stage.split
  rw [List.nil_append] at nodes
  subst nodes
  exact ⟨_, holds, stage, rfl⟩

/-- The same for whatever every visit keeps, whether the node is changed or not. -/
theorem reuseStorage_induction
    (step : ∀ before node after later walk next, motive (before ++ [node]) after walk →
      walk.Stage (before ++ [node]) after → walk.Visit rules before after node later →
        next.storage = node.inputs.foldl Storage.read walk.storage → motive before later next)
    {graph : Graph} {calls : List ReusedCall} (wellFormed : program.graph.WellFormed)
    (valid : Graph.Valid program.graph.nodes)
    (initial : ∀ storage, Storage.ofProgram rules program = .ok storage →
      motive program.graph.nodes [] { graph := program.graph, storage, changes := [] })
    (success : reuseStorage rules accepts program = .ok (graph, calls)) :
    ∃ walk, motive [] graph.nodes walk ∧ walk.Stage [] graph.nodes ∧ walk.graph = graph := by
  refine reuseStorage_visited (fun before node after walk holds stage => ?_) wellFormed valid
    initial success
  obtain ⟨visit, -, read⟩ := stage.visit accepts
  exact step before node after _ walk _ holds stage visit read

end Induction

end OpGraph
