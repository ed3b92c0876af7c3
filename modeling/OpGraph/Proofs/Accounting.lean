import OpGraph.Proofs.Purity

/-!
# What purification counts

Every visited node is emitted, or it is the read of a recorded attribute and becomes a literal.
What is counted on the way can be found again: the folded reads among the nodes of the source, all
else in the new graph.  Only marks of the tracer on folded reads are counted and not found in the
new graph (`Purifier.Accounts`).
-/

namespace OpGraph

/-! ### Nodes that are counted -/

/-- The operation of the form of a call: the pure one if the form is that of a local tensor. -/
def Instruction.formOp (rules : Rules) (instruction : Instruction) : Op :=
  if instruction.isLocalTensor then instruction.pureOp rules else instruction.op

namespace Node

/-- The node is a call that becomes a literal, the recorded value of an attribute. -/
def isFolded (rules : Rules) (node : Node) : Bool :=
  node.op.isCall && node.toInstruction.formOp rules = .callFunction .getAttribute &&
    node.toInstruction.namesRecord

/-- The node is a call whose value is no tensor. -/
def yieldsOther (node : Node) : Bool :=
  node.op.isCall && node.info.any fun info => !info.isTensor

/-- The node is a call that the tracer saw change an input of the graph. -/
def changesInput (node : Node) : Bool :=
  node.op.isCall && node.info.any ValueInfo.isInputMutation

end Node

/-! ### Categories of what is counted -/

namespace PureForm

variable {rules : Rules} {submodules : Forest} {node : Node} {info : ValueInfo} {form : PureForm}

/-- The categories of some keys. -/
def categories (keys : List TallyKey) : List Category :=
  keys.map TallyKey.category

theorem categories_append (first second : List TallyKey) :
    categories (first ++ second) = categories first ++ categories second :=
  List.map_append

theorem categories_of_ofOperator
    (success : (ofOperator rules submodules node).outcome = .ok form) :
    categories form.counted = [] ∨ categories form.counted = [.unconvertedDivision] := by
  unfold ofOperator at success
  split at success
  · split at success
    · split at success
      · simp only [Report.outcome_bind, Report.outcome_note, Report.outcome_ofExcept,
          Report.outcome_pure] at success
        obtain ⟨_, _, named⟩ := Outcome.bind_eq_ok.mp success
        obtain ⟨_, _, same⟩ := Outcome.bind_eq_ok.mp named
        rw [← Except.ok.inj same]
        exact Or.inr rfl
      · rw [← Except.ok.inj success]
        exact Or.inl rfl
    · rw [← Except.ok.inj success]
      exact Or.inl rfl
  · rw [← Except.ok.inj success]
    exact Or.inl rfl

/-- The categories of the changes that are counted for a call with the given record and form. -/
def changeCategories (info : ValueInfo) (form : PureForm) : List Category :=
  if info.isInputMutation then [.inputMutation]
  else if info.isTensor && !form.isPure then [.mutation]
  else []

/-- A form counts the change of an input, or a change that it does not remove; besides, it may count
a division. -/
theorem categories_of_ofCall (success : (ofCall rules submodules node info).outcome = .ok form) :
    ∃ divisions : List Category, (divisions = [] ∨ divisions = [.unconvertedDivision]) ∧
      categories form.counted = divisions ++ changeCategories info form := by
  unfold ofCall at success
  split at success
  · next isLocal =>
    obtain ⟨isTensor, noInput⟩ := (Bool.and_eq_true _ _).mp isLocal
    have inside : info.isInputMutation = false := by simpa using noInput
    have quiet : form.isPure = true → changeCategories info form = [] := by
      intro isPure
      simp [changeCategories, inside, isPure]
    unfold ofTensor at success
    split at success
    · obtain rfl := Except.ok.inj success
      exact ⟨[], Or.inl rfl, (quiet rfl).symm⟩
    · obtain rfl := Except.ok.inj success
      exact ⟨[], Or.inl rfl, (quiet rfl).symm⟩
    · split at success
      · obtain rfl := Except.ok.inj success
        exact ⟨[], Or.inl rfl, (quiet rfl).symm⟩
      · simp only [ofRemaining, Report.outcome_bind] at success
        obtain ⟨base, found, rest⟩ := Outcome.bind_eq_ok.mp success
        refine ⟨categories base.counted, categories_of_ofOperator found, ?_⟩
        split at rest
        · simp only [Report.outcome_bind, Report.outcome_ofExcept, Report.outcome_pure] at rest
          obtain ⟨name, -, same⟩ := Outcome.bind_eq_ok.mp rest
          obtain rfl := Except.ok.inj same
          rw [categories_append, changeCategories, inside, isTensor]
          rfl
        · obtain rfl := Except.ok.inj rest
          rw [quiet (ofOperator_eq_ok found).2.2.1, List.append_nil]
  · next notLocal =>
    refine ⟨[], Or.inl rfl, ?_⟩
    simp only [ofOther] at success
    split at success
    · next input =>
      simp only [Report.outcome_bind, Report.outcome_ofExcept, Report.outcome_pure] at success
      obtain ⟨_, _, same⟩ := Outcome.bind_eq_ok.mp success
      rw [← Except.ok.inj same, changeCategories, if_pos input]
      rfl
    · next noInput =>
      have noTensor : info.isTensor = false := by simpa [noInput] using notLocal
      rw [← Except.ok.inj success, changeCategories, if_neg noInput, noTensor]
      rfl

/-- How often a form counts something of a category. -/
theorem count_categories (success : (ofCall rules submodules node info).outcome = .ok form) :
    (categories form.counted).count .resolvedRead = 0 ∧
      (categories form.counted).count .nontensor = 0 ∧
      (categories form.counted).count .inputMutation = info.isInputMutation.toNat ∧
      (categories form.counted).count .mutation = (changeCategories info form).count .mutation := by
  obtain ⟨divisions, isDivision, counted⟩ := categories_of_ofCall success
  have none : ∀ category, category ≠ .unconvertedDivision → divisions.count category = 0 := by
    intro category different
    rcases isDivision with rfl | rfl
    · rfl
    · exact List.count_eq_zero.mpr fun isMember => different (List.mem_singleton.mp isMember)
  have changes : (changeCategories info form).count .resolvedRead = 0 ∧
      (changeCategories info form).count .nontensor = 0 ∧
      (changeCategories info form).count .inputMutation = info.isInputMutation.toNat := by
    unfold changeCategories
    cases info.isInputMutation with
    | true => exact ⟨rfl, rfl, rfl⟩
    | false =>
        cases info.isTensor && !form.isPure with
        | true => exact ⟨rfl, rfl, rfl⟩
        | false => exact ⟨rfl, rfl, rfl⟩
  simp [counted, List.count_append, none, changes]

/-- The operation of a form is that of its call, if the form is not one of a local tensor. -/
theorem op_eq_formOp (hasInfo : node.info = some info)
    (success : (ofCall rules submodules node info).outcome = .ok form) :
    form.op = node.toInstruction.formOp rules := by
  rw [Instruction.formOp, Instruction.isLocalTensor_eq hasInfo]
  split
  · next isLocal => exact op_of_ofCall isLocal success
  · next notLocal =>
    have suits := suits_of_ofCall success
    have outside := Bool.eq_false_of_not_eq_true notLocal
    obtain ⟨op, dropped, changed, isPure, counted⟩ := form
    cases suits with
    | flagged | received | remaining | other => rfl
    | variant isTensor inside | operator isTensor inside =>
        rw [isTensor, inside] at outside
        cases outside

/-- Only a call with the mark of the tracer counts a change that stays. -/
theorem count_mutation_le (success : (ofCall rules submodules node info).outcome = .ok form) :
    (changeCategories info form).count .mutation ≤ info.isMutation.toNat := by
  have suits := suits_of_ofCall success
  unfold changeCategories
  obtain ⟨op, dropped, changed, isPure, counted⟩ := form
  cases suits with
  | flagged _ inside | received _ inside | variant _ inside => simp [inside]
  | operator isTensor inside | remaining isTensor inside =>
      cases info.isMutation with
      | true => simp [inside, isTensor]
      | false => simp [inside]
  | other outside =>
      cases input : info.isInputMutation with
      | true => simp
      | false => simp [input] at outside; simp [outside]

end PureForm

/-- A read with a value counts it, and any other read counts its attribute at most. -/
theorem AttributeRead.categories_of_ofCall {graph : Graph} {node : Node} {read : AttributeRead}
    (success : (AttributeRead.ofCall graph node).outcome = .ok read) :
    (read.value.isSome = true ∧ PureForm.categories read.counted = [.resolvedRead]) ∨
      (read.value.isSome = false ∧ (PureForm.categories read.counted = [] ∨
        PureForm.categories read.counted = [.attributeRead])) := by
  unfold AttributeRead.ofCall at success
  split at success
  · rw [← Except.ok.inj success]
    exact Or.inr ⟨rfl, Or.inl rfl⟩
  · split at success
    · simp only [Report.outcome_bind, Report.outcome_ofExcept] at success
      obtain ⟨_, _, success⟩ := Outcome.bind_eq_ok.mp success
      obtain ⟨_, _, success⟩ := Outcome.bind_eq_ok.mp success
      split at success
      · simp only [Report.outcome_bind, Report.outcome_note, Report.outcome_pure] at success
        obtain ⟨_, _, success⟩ := Outcome.bind_eq_ok.mp success
        rw [← Except.ok.inj success]
        exact Or.inl ⟨rfl, rfl⟩
      · cases success
    · rw [← Except.ok.inj success]
      exact Or.inr ⟨rfl, Or.inr rfl⟩

/-! ### The run -/

namespace Purifier

variable {rules : Rules} {program : Program} {node : Node} {purifier next : Purifier}

theorem total_count (purifier : Purifier) (keys : List TallyKey) (category : Category) :
    (purifier.count keys).tally.total category =
      purifier.tally.total category + (PureForm.categories keys).count category := by
  have counted : keys.countP (fun key => key.category = category) =
      (PureForm.categories keys).count category := by
    rw [PureForm.categories, List.count, List.countP_map]
    exact List.countP_congr fun key _ => by simp
  rw [← counted]
  exact Tally.total_countAll purifier.tally keys category

/-- The new graph and the folded reads among the visited nodes account for what has been counted. -/
structure Accounts (rules : Rules) (visited : List Node) (purifier : Purifier) : Prop where
  stage : Stage visited purifier.graph purifier.env
  /-- Every visited node is emitted or folded. -/
  size : purifier.graph.nodes.length + purifier.tally.total .resolvedRead = visited.length
  folded : purifier.tally.total .resolvedRead = visited.countP (Node.isFolded rules)
  nontensor : purifier.tally.total .nontensor = purifier.graph.nodes.countP Node.yieldsOther
  input : purifier.tally.total .inputMutation = purifier.graph.nodes.countP Node.changesInput +
    visited.countP fun node => node.isFolded rules && node.changesInput
  mutation : purifier.graph.nodes.countP Node.keepsMark ≤ purifier.tally.total .mutation
  mutation_le : purifier.tally.total .mutation ≤ purifier.graph.nodes.countP Node.keepsMark +
    visited.countP fun node => node.isFolded rules && node.toInstruction.isMarked

theorem accounts_start : Accounts rules [] {} :=
  ⟨stage_start, rfl, rfl, rfl, rfl, Nat.zero_le _, Nat.zero_le _⟩

theorem isFolded_of_folded {info : ValueInfo} {form : PureForm} {read : AttributeRead} {value : Arg}
    (isCall : node.op.isCall = true) (hasInfo : node.info = some info)
    (formed : (PureForm.ofCall rules program.submodules node info).outcome = .ok form)
    (isRead : form.op = .callFunction .getAttribute)
    (reading : (AttributeRead.ofCall program.graph node).outcome = .ok read)
    (found : read.value = some value) : node.isFolded rules = true := by
  rw [Node.isFolded, isCall, ← PureForm.op_eq_formOp hasInfo formed, isRead,
    ← (AttributeRead.of_ofCall reading).1, found]
  simp

/-- A call that is made is no folded read, and what is looked up for it counts no change. -/
theorem isFolded_of_called {info : ValueInfo} {form : PureForm} {read : AttributeRead}
    (hasInfo : node.info = some info)
    (formed : (PureForm.ofCall rules program.submodules node info).outcome = .ok form)
    (reading : (if form.op = .callFunction .getAttribute then
      AttributeRead.ofCall program.graph node else pure {}).outcome = .ok read)
    (unread : read.value = none) :
    node.isFolded rules = false ∧
      (PureForm.categories read.counted = [] ∨
        PureForm.categories read.counted = [.attributeRead]) := by
  rw [Node.isFolded, ← PureForm.op_eq_formOp hasInfo formed]
  by_cases isRead : form.op = .callFunction .getAttribute
  · rw [if_pos isRead] at reading
    refine ⟨?_, ?_⟩
    · rw [← (AttributeRead.of_ofCall reading).1, unread]
      exact Bool.and_false _
    · rcases AttributeRead.categories_of_ofCall reading with ⟨isSome, -⟩ | ⟨-, counted⟩
      · rw [unread] at isSome
        cases isSome
      · exact counted
  · rw [if_neg isRead] at reading
    obtain rfl := Except.ok.inj reading
    exact ⟨by simp [isRead], Or.inl rfl⟩

/-- Counting a value that is no tensor is all that is counted last for a call. -/
theorem categories_of_naming {info : ValueInfo} {extra : List TallyKey}
    {naming : Except Failure String}
    (named : (if info.isTensor then .ok [] else (fun name => [⟨.nontensor, name⟩]) <$> naming) =
      .ok extra) :
    PureForm.categories extra = if info.isTensor then [] else [.nontensor] := by
  split at named
  · next isTensor =>
    rw [← Except.ok.inj named, if_pos isTensor]
    rfl
  · next noTensor =>
    obtain ⟨name, -, rfl⟩ := Outcome.map_eq_ok.mp named
    rw [if_neg noTensor]
    rfl

/-- The call that is made carries the records that are counted for it. -/
theorem flags_of_called {info : ValueInfo} {form : PureForm} {args : List Arg}
    {kwargs : Kwargs NodeId} {env : Env} (isCall : node.op.isCall = true)
    (formed : (PureForm.ofCall rules program.submodules node info).outcome = .ok form)
    (found : (sourceCall info form node).traverse env.value = .ok (pureCall info form args kwargs))
    (graph : Graph) :
    let new := graph.newNode (pureCall info form args kwargs) none
    new.yieldsOther = !info.isTensor ∧ new.changesInput = info.isInputMutation ∧
      new.keepsMark.toNat = (PureForm.changeCategories info form).count .mutation := by
  have suits := PureForm.suits_of_ofCall formed
  have isNewCall := suits.isCall isCall
  have record : ∀ test : ValueInfo → Bool, test { info with isMutation := false } = test info →
      (pureCall info form args kwargs).info.any test = test info := by
    intro test same
    rw [pureCall]
    split
    · exact same
    · rfl
  refine ⟨?_, ?_, ?_⟩
  · show (form.op.isCall && (pureCall info form args kwargs).info.any _) = _
    rw [isNewCall, record _ rfl]
    rfl
  · show (form.op.isCall && (pureCall info form args kwargs).info.any _) = _
    rw [isNewCall, record _ rfl]
    rfl
  · show (form.op.isCall && (pureCall info form args kwargs).isLocalTensor &&
      (pureCall info form args kwargs).isMarked).toNat = _
    rw [isNewCall, isLocalTensor_pureCall, PureForm.changeCategories, Bool.true_and]
    by_cases isLocal : (info.isTensor && !info.isInputMutation) = true
    · rw [isLocal, suits.isMarked_eq isLocal found]
      obtain ⟨isTensor, inside⟩ := (Bool.and_eq_true _ _).mp isLocal
      cases isPure : form.isPure <;> simp_all
    · rw [Bool.eq_false_of_not_eq_true isLocal]
      cases input : info.isInputMutation <;> simp_all

/-- What a visit that emits the nodes `added` counts of each category. -/
structure Books (rules : Rules) (node : Node) (added : List Node) (purifier next : Purifier) :
    Prop where
  nodes : next.graph.nodes = purifier.graph.nodes ++ added
  single : added.length + (node.isFolded rules).toNat = 1
  folded : next.tally.total .resolvedRead =
    purifier.tally.total .resolvedRead + (node.isFolded rules).toNat
  nontensor : next.tally.total .nontensor =
    purifier.tally.total .nontensor + added.countP Node.yieldsOther
  input : next.tally.total .inputMutation = purifier.tally.total .inputMutation +
    (added.countP Node.changesInput + (node.isFolded rules && node.changesInput).toNat)
  mutation : purifier.tally.total .mutation + added.countP Node.keepsMark ≤
    next.tally.total .mutation
  mutation_le : next.tally.total .mutation ≤ purifier.tally.total .mutation +
    (added.countP Node.keepsMark + (node.isFolded rules && node.toInstruction.isMarked).toNat)

theorem Accounts.extend {visited added : List Node} (accounts : Accounts rules visited purifier)
    (stage : Stage (visited ++ [node]) next.graph next.env)
    (books : Books rules node added purifier next) : Accounts rules (visited ++ [node]) next := by
  have last : ∀ test : Node → Bool,
      (visited ++ [node]).countP test = visited.countP test + (test node).toNat := by
    intro test
    rw [List.countP_append, List.countP_singleton]
    cases test node <;> rfl
  obtain ⟨-, size, folded, nontensor, input, mutation, mutation_le⟩ := accounts
  obtain ⟨nodes, single, foldedNext, nontensorNext, inputNext, mutationNext, mutationNext_le⟩ :=
    books
  refine ⟨stage, ?_, ?_, ?_, ?_, ?_, ?_⟩
  · rw [nodes, foldedNext, List.length_append, List.length_append, List.length_singleton]
    omega
  · rw [foldedNext, last, folded]
  · rw [nontensorNext, nodes, List.countP_append, nontensor]
  · rw [inputNext, nodes, List.countP_append, last, input]
    omega
  · rw [nodes, List.countP_append]
    omega
  · rw [nodes, List.countP_append, last]
    omega

/-- What the visit of a folded read counts. -/
theorem total_of_folded (purifier : Purifier) (form : PureForm) {read : AttributeRead} {value : Arg}
    (reading : (AttributeRead.ofCall program.graph node).outcome = .ok read)
    (found : read.value = some value) (category : Category) :
    ((purifier.count (form.counted ++ read.counted)).bind node.id value).tally.total category =
      purifier.tally.total category + ((PureForm.categories form.counted).count category +
        [Category.resolvedRead].count category) := by
  have counted : PureForm.categories read.counted = [.resolvedRead] := by
    rcases AttributeRead.categories_of_ofCall reading with ⟨-, counted⟩ | ⟨none, -⟩
    · exact counted
    · rw [found] at none
      cases none
  rw [← counted, ← List.count_append, ← PureForm.categories_append]
  exact total_count purifier _ category

/-- What the visit of a call that is made counts, reads of attributes apart. -/
theorem total_of_called (purifier : Purifier) (form : PureForm) {info : ValueInfo}
    {read : AttributeRead} {extra : List TallyKey}
    (counted : PureForm.categories read.counted = [] ∨
      PureForm.categories read.counted = [.attributeRead])
    (named : PureForm.categories extra = if info.isTensor then [] else [.nontensor])
    (category : Category) (different : category ≠ .attributeRead) :
    (purifier.count (form.counted ++ read.counted ++ extra)).tally.total category =
      purifier.tally.total category + ((PureForm.categories form.counted).count category +
        (if info.isTensor then [] else [Category.nontensor]).count category) := by
  have silent : (PureForm.categories read.counted).count category = 0 := by
    rcases counted with none | single
    · rw [none]
      rfl
    · rw [single]
      exact List.count_eq_zero.mpr fun isMember => different (List.mem_singleton.mp isMember)
  rw [total_count, PureForm.categories_append, PureForm.categories_append, List.count_append,
    List.count_append, silent, named, Nat.add_zero]

theorem books_of_step {visited : List Node} (stage : Stage visited purifier.graph purifier.env)
    (step : Step rules program node purifier next) :
    ∃ added, Books rules node added purifier next := by
  cases step with
  | @copied instruction noCall found =>
      have noCallNew : instruction.op.isCall = false :=
        (congrArg Op.isCall (Instruction.op_traverse found)).trans noCall
      have unfolded : node.isFolded rules = false := by simp [Node.isFolded, noCall]
      refine ⟨_, stage.nodes_emit instruction node.copyHint, ?_, ?_, ?_, ?_, ?_, ?_⟩
      all_goals simp [unfolded, Node.yieldsOther, Node.changesInput, Node.keepsMark, Graph.newNode,
        noCallNew]
  | @folded info form read value isCall hasInfo formed isRead reading found =>
      have isFolded := isFolded_of_folded isCall hasInfo formed isRead reading found
      obtain ⟨noRead, noNontensor, input, mutation⟩ := PureForm.count_categories formed
      have marked : (PureForm.changeCategories info form).count .mutation ≤
          node.toInstruction.isMarked.toNat := by
        rw [Instruction.isMarked, hasInfo]
        exact PureForm.count_mutation_le formed
      have changed : node.changesInput = info.isInputMutation := by
        rw [Node.changesInput, isCall, hasInfo]
        rfl
      have totals := total_of_folded purifier form reading found
      refine ⟨[], (List.append_nil _).symm, ?_, ?_, ?_, ?_, ?_, ?_⟩
      · rw [isFolded]
        rfl
      · rw [totals, noRead, isFolded]
        rfl
      · rw [totals, noNontensor]
        rfl
      · rw [totals, input, isFolded, changed]
        simp
      · rw [totals]
        exact Nat.add_le_add_left (Nat.zero_le _) _
      · rw [totals, mutation, isFolded]
        simpa using marked
  | @called info form read extra args kwargs isCall hasInfo formed reading unread naming foundArgs
      foundKwargs =>
      obtain ⟨unfolded, counted⟩ := isFolded_of_called hasInfo formed reading unread
      obtain ⟨noRead, noNontensor, input, mutation⟩ := PureForm.count_categories formed
      obtain ⟨yieldsOther, changesInput, keepsMark⟩ := flags_of_called isCall formed
        (traverse_sourceCall info foundArgs foundKwargs) purifier.graph
      have totals := total_of_called purifier form counted (categories_of_naming naming)
      have marks : (purifier.count (form.counted ++ read.counted ++ extra)).tally.total .mutation =
          purifier.tally.total .mutation +
            [purifier.graph.newNode (pureCall info form args kwargs) none].countP
              Node.keepsMark := by
        rw [totals .mutation (by decide), mutation, ← keepsMark, List.countP_singleton]
        cases info.isTensor <;> cases Node.keepsMark _ <;> rfl
      refine ⟨_, stage.nodes_emit (pureCall info form args kwargs) none, ?_, ?_, ?_, ?_, marks.ge,
        marks.le.trans (Nat.add_le_add_left (Nat.le_add_right _ _) _)⟩
      · rw [unfolded]
        rfl
      · refine (totals .resolvedRead (by decide)).trans ?_
        rw [noRead, unfolded]
        cases info.isTensor <;> rfl
      · refine (totals .nontensor (by decide)).trans ?_
        rw [noNontensor, List.countP_singleton, yieldsOther]
        cases info.isTensor <;> rfl
      · refine (totals .inputMutation (by decide)).trans ?_
        rw [input, List.countP_singleton, changesInput, unfolded]
        cases info.isTensor <;> cases info.isInputMutation <;> rfl

theorem Accounts.step {visited : List Node} (accounts : Accounts rules visited purifier)
    (step : Step rules program node purifier next) : Accounts rules (visited ++ [node]) next := by
  obtain ⟨added, books⟩ := books_of_step accounts.stage step
  exact accounts.extend (accounts.stage.visit step.visit) books

theorem accounts_purify {graph : Graph} {tally : Tally}
    (success : (purify rules program).outcome = .ok (graph, tally)) :
    ∃ env, Accounts rules program.graph.nodes ⟨graph, env, tally⟩ :=
  purify_induction_steps (motive := fun visited purifier => Accounts rules visited purifier)
    (fun _ _ _ _ _ _ accounts step => accounts.step step) accounts_start success

end Purifier

/-- The tally of a purification fits the two graphs.  Nodes of the source are emitted or are folded
reads, which are counted.  As many values are counted that are no tensors as calls of the new graph
yield.  At least as many changes of inputs, and other changes, are counted as calls of the new graph
are marked with; exactly as many, if no folded read carries a mark. -/
theorem purification_tally_fits_graphs {rules : Rules} {program : Program} {graph : Graph}
    {tally : Tally} (success : (purify rules program).outcome = .ok (graph, tally)) :
    graph.size + tally.total .resolvedRead = program.graph.size ∧
      tally.total .resolvedRead = program.graph.nodes.countP (Node.isFolded rules) ∧
      tally.total .nontensor = graph.nodes.countP Node.yieldsOther ∧
      graph.nodes.countP Node.changesInput ≤ tally.total .inputMutation ∧
      graph.nodes.countP Node.keepsMark ≤ tally.total .mutation ∧
      ((∀ node ∈ program.graph.nodes, node.isFolded rules = true →
          node.changesInput = false ∧ node.toInstruction.isMarked = false) →
        graph.nodes.countP Node.changesInput = tally.total .inputMutation ∧
          graph.nodes.countP Node.keepsMark = tally.total .mutation) := by
  obtain ⟨env, -, size, folded, nontensor, input, mutation, mutation_le⟩ :=
    Purifier.accounts_purify success
  refine ⟨size, folded, nontensor, input ▸ Nat.le_add_right _ _, mutation, fun unmarked => ?_⟩
  have noInput : program.graph.nodes.countP
      (fun node => node.isFolded rules && node.changesInput) = 0 := by
    refine List.countP_eq_zero.mpr fun node isNode both => ?_
    obtain ⟨isFolded, changes⟩ := (Bool.and_eq_true _ _).mp both
    cases changes.symm.trans (unmarked node isNode isFolded).1
  have noMark : program.graph.nodes.countP
      (fun node => node.isFolded rules && node.toInstruction.isMarked) = 0 := by
    refine List.countP_eq_zero.mpr fun node isNode both => ?_
    obtain ⟨isFolded, isMarked⟩ := (Bool.and_eq_true _ _).mp both
    cases isMarked.symm.trans (unmarked node isNode isFolded).2
  rw [noInput] at input
  rw [noMark] at mutation_le
  exact ⟨input.symm, mutation.antisymm mutation_le⟩

/-- A folded read, a value that is no tensor, a change of an input and a change that stays. -/
def countedCalls : Program where
  graph :=
    { nodes :=
        [{ op := .placeholder, id := ⟨0⟩, name := "input" },
          { op := .callFunction ⟨"torch.exp"⟩, args := [.ref ⟨0⟩],
            info := some { dtype := some "float32" }, id := ⟨1⟩, name := "exp" },
          { op := .callFunction .getAttribute, args := [.ref ⟨1⟩, .literal (.text "dtype")],
            info := some { kind := .other "dtype" }, id := ⟨2⟩, name := "getattr" },
          { op := .callMethod "size", args := [.ref ⟨1⟩], info := some { kind := .other "size" },
            id := ⟨3⟩, name := "size" },
          { op := .callMethod "fill", args := [.ref ⟨0⟩, .ref ⟨3⟩],
            info := some { isMutation := true, isInputMutation := true }, id := ⟨4⟩,
            name := "fill" },
          { op := .callMethod "fill", args := [.ref ⟨1⟩, .ref ⟨2⟩],
            info := some { isMutation := true }, id := ⟨5⟩, name := "fill_1" },
          { op := .output, args := [.ref ⟨5⟩], id := ⟨6⟩, name := "output" }]
      created := 7 }

theorem countedCalls_tally_fits_graphs :
    ∃ graph tally, (purify .standard countedCalls).outcome = .ok (graph, tally) ∧
      graph.size + tally.total .resolvedRead = 7 ∧ tally.total .resolvedRead = 1 ∧
      tally.total .nontensor = graph.nodes.countP Node.yieldsOther ∧
      graph.nodes.countP Node.changesInput = tally.total .inputMutation ∧
      graph.nodes.countP Node.keepsMark = tally.total .mutation ∧
      0 < graph.nodes.countP Node.yieldsOther ∧ 0 < graph.nodes.countP Node.changesInput ∧
      0 < graph.nodes.countP Node.keepsMark := by
  obtain ⟨graph, tally, success, positive⟩ : ∃ graph tally,
      (purify .standard countedCalls).outcome = .ok (graph, tally) ∧
        0 < graph.nodes.countP Node.yieldsOther ∧ 0 < graph.nodes.countP Node.changesInput ∧
          0 < graph.nodes.countP Node.keepsMark := ⟨_, _, rfl, by decide +kernel⟩
  obtain ⟨size, folded, nontensor, -, -, exactly⟩ := purification_tally_fits_graphs success
  have unmarked : ∀ node ∈ countedCalls.graph.nodes, node.isFolded .standard = true →
      node.changesInput = false ∧ node.toInstruction.isMarked = false := by decide +kernel
  have one : countedCalls.graph.nodes.countP (Node.isFolded .standard) = 1 := by decide +kernel
  obtain ⟨input, mutation⟩ := exactly unmarked
  exact ⟨graph, tally, success, size, folded.trans one, nontensor, input, mutation, positive⟩

end OpGraph
