import OpGraph.Proofs.InputPreservation

/-!
# Faults that validation reports

A node of a graph can be at fault in four ways: it is a second output, it stands behind the output,
it is an input behind other nodes, or it refers to a node that does not stand before it
(`Graph.Fault`).  What is at fault with a node depends on the nodes before it only.

Validation keeps a survey of the nodes that it has visited, and the survey tells all that matters
about them (`Survey.Covers`).  So a visit fails exactly with the fault of the visited node, and
validation fails with the fault at the smallest place, or for want of an output if there is none.
-/

namespace OpGraph

namespace Graph

/-- What is at fault with a node behind the nodes `before`; `graph` serves to name nodes.  Behind an
output nothing else counts, and an input that comes late is not asked what it refers to. -/
inductive Fault (graph : Graph) (before : List Node) (node : Node) : Failure → Prop where
  /-- There is an output already. -/
  | secondOutput {output : Node} (earlier : output ∈ before) (isOutput : output.op = .output)
      (again : node.op = .output) : Fault graph before node .duplicateOutput
  /-- Another node stands behind the output. -/
  | behindOutput {output : Node} (earlier : output ∈ before) (isOutput : output.op = .output)
      (notOutput : node.op ≠ .output) : Fault graph before node (.outputNotLast output.name)
  /-- An input stands behind a node that is none. -/
  | lateInput {other : Node} (noOutput : ∀ output ∈ before, output.op ≠ .output)
      (isInput : node.op = .placeholder) (earlier : other ∈ before)
      (notInput : other.op ≠ .placeholder) :
      Fault graph before node (.placeholderOutOfOrder node.name)
  /-- A reference, the first of its kind, leads to no earlier node. -/
  | unknownInput {known later : List NodeId} {input : NodeId}
      (noOutput : ∀ output ∈ before, output.op ≠ .output)
      (inOrder : node.op = .placeholder → ∀ other ∈ before, other.op = .placeholder)
      (reads : node.inputs = known ++ input :: later)
      (isKnown : ∀ id ∈ known, id ∈ before.map Node.id) (unknown : input ∉ before.map Node.id) :
      Fault graph before node (.forwardReference node.name (graph.nameOf input))

/-- The node at a place of the graph is at fault. -/
def FaultAt (graph : Graph) (place : Nat) (failure : Failure) : Prop :=
  ∃ node, graph.nodes[place]? = some node ∧ Fault graph (graph.nodes.take place) node failure

/-- The inputs come first, the only output is the last node, and every reference leads to a node at
a smaller place. -/
structure Ordered (graph : Graph) : Prop where
  /-- All inputs stand before all other nodes. -/
  inputsFirst : ∃ inputs others, graph.nodes = inputs ++ others ∧
    (∀ node ∈ inputs, node.op = .placeholder) ∧ ∀ node ∈ others, node.op ≠ .placeholder
  /-- The last node is an output, and no other node is. -/
  outputLast : ∃ inner output, graph.nodes = inner ++ [output] ∧ output.op = .output ∧
    ∀ node ∈ inner, node.op ≠ .output
  /-- What the node at a place refers to has a smaller place. -/
  readsEarlier : ∀ place node, graph.nodes[place]? = some node → ∀ input ∈ node.inputs,
    ∃ earlier < place, graph.idAt? earlier = some input

namespace Survey

variable {graph : Graph} {survey next : Survey} {before : List Node} {node : Node}
variable {failure : Failure}

/-- The survey tells which nodes have been visited, whether one of them is no input, and the name of
every output among them. -/
structure Covers (survey : Survey) (before : List Node) : Prop where
  defined : ∀ id, id ∈ survey.defined ↔ id ∈ before.map Node.id
  pastInputs : survey.pastInputs = true ↔ ∃ other ∈ before, other.op ≠ .placeholder
  named : ∀ output ∈ before, output.op = .output → survey.output = some output.name
  found : ∀ name, survey.output = some name →
    ∃ output ∈ before, output.op = .output ∧ output.name = name

theorem covers_start : ({} : Survey).Covers [] where
  defined _ := Iff.rfl
  pastInputs := by simp
  named _ member := absurd member List.not_mem_nil
  found _ impossible := nomatch impossible

theorem Covers.noOutput (covers : survey.Covers before) (pending : survey.output = none) :
    ∀ output ∈ before, output.op ≠ .output := by
  intro output earlier isOutput
  cases pending.symm.trans (covers.named output earlier isOutput)

theorem Covers.extend (covers : survey.Covers before) (pending : survey.output = none) :
    (survey.extend node).Covers (before ++ [node]) where
  defined id := by
    simp only [Survey.extend, List.mem_cons, List.map_append, List.mem_append, covers.defined]
    simp [or_comm]
  pastInputs := by
    simp only [Survey.extend, Bool.or_eq_true, covers.pastInputs, decide_eq_true_eq,
      List.mem_append, List.mem_singleton, or_and_right, exists_or, exists_eq_left]
  named output member isOutput := by
    rcases List.mem_append.mp member with earlier | here
    · exact absurd isOutput (covers.noOutput pending output earlier)
    · obtain rfl := List.mem_singleton.mp here
      rw [Survey.extend, if_pos isOutput]
  found name named := by
    rw [Survey.extend] at named
    split at named
    · next isOutput => exact ⟨node, by simp, isOutput, Option.some.inj named⟩
    · cases named

/-- The first reference that the survey does not know leads to none of the visited nodes. -/
theorem Covers.find?_eq_some_iff (covers : survey.Covers before) {inputs : List NodeId}
    {input : NodeId} :
    inputs.find? (fun id => !survey.defined.contains id) = some input ↔
      ∃ known later, inputs = known ++ input :: later ∧ (∀ id ∈ known, id ∈ before.map Node.id) ∧
        input ∉ before.map Node.id := by
  have isDefined : ∀ id, survey.defined.contains id = true ↔ id ∈ before.map Node.id := by
    intro id
    rw [List.contains_iff_mem, covers.defined]
  simp only [List.find?_eq_some_iff_append, Bool.not_not, isDefined, Bool.not_eq_true',
    Bool.eq_false_iff, ne_eq]
  constructor
  · rintro ⟨unknown, known, later, reads, isKnown⟩
    exact ⟨known, later, reads, isKnown, unknown⟩
  · rintro ⟨known, later, reads, isKnown, unknown⟩
    exact ⟨unknown, known, later, reads, isKnown⟩

/-- Behind an output, a node is at fault for standing there. -/
theorem Covers.fault_iff_of_output (covers : survey.Covers before) {name : String}
    (found : survey.output = some name) :
    Fault graph before node failure ↔
      (if node.op = .output then .duplicateOutput else .outputNotLast name) = failure := by
  obtain ⟨output, earlier, isOutput, rfl⟩ := covers.found name found
  constructor
  · rintro (⟨-, -, again⟩ | ⟨another, isAnother, notOutput⟩ | ⟨noOutput⟩ | ⟨noOutput⟩)
    · rw [if_pos again]
    · rw [if_neg notOutput,
        Option.some.inj (found.symm.trans (covers.named _ another isAnother))]
    · exact absurd isOutput (noOutput output earlier)
    · exact absurd isOutput (noOutput output earlier)
  · rintro rfl
    split
    · next again => exact .secondOutput earlier isOutput again
    · next notOutput => exact .behindOutput earlier isOutput notOutput

/-- An input behind a node that is none is at fault for coming late. -/
theorem Covers.fault_iff_of_late (covers : survey.Covers before)
    (noOutput : ∀ output ∈ before, output.op ≠ .output) (isInput : node.op = .placeholder)
    (past : survey.pastInputs = true) :
    Fault graph before node failure ↔ .placeholderOutOfOrder node.name = failure := by
  obtain ⟨other, earlier, notInput⟩ := covers.pastInputs.mp past
  constructor
  · rintro (⟨before, isOutput⟩ | ⟨before, isOutput⟩ | - | ⟨-, inOrder⟩)
    · exact absurd isOutput (noOutput _ before)
    · exact absurd isOutput (noOutput _ before)
    · rfl
    · exact absurd (inOrder isInput other earlier) notInput
  · rintro rfl
    exact .lateInput noOutput isInput earlier notInput

/-- Any other node is at fault for the first reference that the survey does not know. -/
theorem Covers.fault_iff_of_inOrder (covers : survey.Covers before)
    (noOutput : ∀ output ∈ before, output.op ≠ .output)
    (early : ¬(node.op = .placeholder ∧ survey.pastInputs = true)) :
    Fault graph before node failure ↔
      ∃ input, node.inputs.find? (fun id => !survey.defined.contains id) = some input ∧
        .forwardReference node.name (graph.nameOf input) = failure := by
  have inOrder : node.op = .placeholder → ∀ other ∈ before, other.op = .placeholder := by
    intro isInput other earlier
    by_contra notInput
    exact early ⟨isInput, covers.pastInputs.mpr ⟨other, earlier, notInput⟩⟩
  constructor
  · rintro (⟨earlier, isOutput⟩ | ⟨earlier, isOutput⟩ | ⟨-, isInput, earlier, notInput⟩ |
      ⟨-, -, reads, isKnown, unknown⟩)
    · exact absurd isOutput (noOutput _ earlier)
    · exact absurd isOutput (noOutput _ earlier)
    · exact absurd (inOrder isInput _ earlier) notInput
    · exact ⟨_, covers.find?_eq_some_iff.mpr ⟨_, _, reads, isKnown, unknown⟩, rfl⟩
  · rintro ⟨input, found, rfl⟩
    obtain ⟨known, later, reads, isKnown, unknown⟩ := covers.find?_eq_some_iff.mp found
    exact .unknownInput noOutput inOrder reads isKnown unknown

/-- A visit fails exactly with the fault of the visited node. -/
theorem Covers.visit_eq_error_iff (covers : survey.Covers before) :
    survey.visit graph node = .error failure ↔ Fault graph before node failure := by
  unfold visit
  split
  · next name found => rw [Except.error.injEq, covers.fault_iff_of_output found]
  · next pending =>
    have noOutput := covers.noOutput pending
    split
    · next late => rw [Except.error.injEq, covers.fault_iff_of_late noOutput late.1 late.2]
    · next early =>
      rw [covers.fault_iff_of_inOrder noOutput early]
      split
      · next input found =>
        simp only [found, Except.error.injEq, Option.some.injEq, exists_eq_left']
      · next allKnown => simp only [allKnown, reduceCtorEq, false_and, exists_false]

/-- What is not at fault is added to the survey. -/
theorem Covers.visit (covers : survey.Covers before)
    (visited : survey.visit graph node = .ok next) : next.Covers (before ++ [node]) := by
  have pending : survey.output = none := by
    cases found : survey.output with
    | none => rfl
    | some name =>
        rw [Survey.visit, found] at visited
        cases visited
  obtain ⟨-, -, rfl⟩ := (visit_eq_ok_iff pending).mp visited
  exact covers.extend pending

/-- From a survey of the nodes before, which are not at fault, validation goes on to the first
fault, or covers the graph. -/
theorem Covers.foldlM_visit {nodes : List Node} (covers : survey.Covers before)
    (split : graph.nodes = before ++ nodes)
    (faultless : ∀ place < before.length, ∀ other, ¬graph.FaultAt place other) :
    (∃ failure place, nodes.foldlM (Survey.visit graph) survey = .error failure ∧
      (∀ other, graph.FaultAt place other ↔ other = failure) ∧
      ∀ earlier < place, ∀ other, ¬graph.FaultAt earlier other) ∨
    ∃ final, nodes.foldlM (Survey.visit graph) survey = .ok final ∧ final.Covers graph.nodes ∧
      ∀ place other, ¬graph.FaultAt place other := by
  induction nodes generalizing before survey with
  | nil =>
      rw [List.append_nil] at split
      refine Or.inr ⟨survey, rfl, split ▸ covers, fun place other fault => ?_⟩
      have inRange := (List.getElem?_eq_some_iff.mp fault.choose_spec.1).1
      exact faultless place (split ▸ inRange) other fault
  | cons node rest ih =>
      have here : ∀ failure, graph.FaultAt before.length failure ↔
          survey.visit graph node = .error failure := by
        intro failure
        rw [covers.visit_eq_error_iff, FaultAt, split, List.take_left, List.getElem?_append_right
          (Nat.le_refl _), Nat.sub_self, List.getElem?_cons_zero]
        simp
      rw [List.foldlM_cons]
      cases visited : survey.visit graph node with
      | error failure =>
          refine Or.inl ⟨failure, before.length, rfl, fun other => ?_, faultless⟩
          rw [here, visited, Except.error.injEq, eq_comm]
      | ok next =>
          refine ih (covers.visit visited) (by rw [split, List.append_assoc]; rfl) ?_
          intro place inRange other fault
          rw [List.length_append, List.length_singleton] at inRange
          rcases Nat.lt_or_eq_of_le (Nat.le_of_lt_succ inRange) with earlier | rfl
          · exact faultless place earlier other fault
          · cases visited.symm.trans ((here other).mp fault)

end Survey

variable {graph : Graph}

/-- Without a fault, all depends on whether an output has been found. -/
theorem validate_of_completed {final : Survey}
    (completed : graph.nodes.foldlM (Survey.visit graph) {} = .ok final) :
    graph.validate = if final.output.isSome then .ok () else .error .missingOutput := by
  rw [validate, completed]
  cases found : final.output with
  | none =>
      simp only [bind, Except.bind, found]
      rfl
  | some name =>
      simp only [bind, Except.bind, found]
      rfl

/-- Validation fails with the fault at the smallest place, fails for want of an output if no node is
at fault, or succeeds. -/
theorem validate_cases (graph : Graph) :
    (∃ failure place, graph.validate = .error failure ∧
      (∀ other, graph.FaultAt place other ↔ other = failure) ∧
      ∀ earlier < place, ∀ other, ¬graph.FaultAt earlier other) ∨
    (∀ place other, ¬graph.FaultAt place other) ∧
      (graph.validate = .error .missingOutput ∧ (∀ node ∈ graph.nodes, node.op ≠ .output) ∨
        graph.validate = .ok () ∧ ∃ node ∈ graph.nodes, node.op = .output) := by
  rcases Survey.covers_start.foldlM_visit (List.nil_append graph.nodes).symm
      (fun place impossible => absurd impossible (Nat.not_lt_zero place)) with
    ⟨failure, place, failed, fault, first⟩ | ⟨final, completed, covers, faultless⟩
  · refine Or.inl ⟨failure, place, ?_, fault, first⟩
    rw [validate, failed]
    rfl
  · refine Or.inr ⟨faultless, ?_⟩
    rw [validate_of_completed completed]
    cases found : final.output with
    | none => exact Or.inl ⟨rfl, covers.noOutput found⟩
    | some name =>
        obtain ⟨output, member, isOutput, -⟩ := covers.found name found
        exact Or.inr ⟨rfl, output, member, isOutput⟩

/-! ### Ordered graphs -/

theorem mem_map_id_take_iff {place : Nat} {id : NodeId} :
    id ∈ (graph.nodes.take place).map Node.id ↔
      ∃ earlier < place, graph.idAt? earlier = some id := by
  simp only [List.mem_map, List.mem_take_iff_getElem, idAt?, Option.map_eq_some_iff,
    List.getElem?_eq_some_iff]
  constructor
  · rintro ⟨node, ⟨earlier, inRange, rfl⟩, rfl⟩
    exact ⟨earlier, by omega, _, ⟨by omega, rfl⟩, rfl⟩
  · rintro ⟨earlier, before, node, ⟨inRange, rfl⟩, rfl⟩
    exact ⟨_, ⟨earlier, by omega, rfl⟩, rfl⟩

/-- No node of an ordered graph is at fault. -/
theorem Ordered.faultless (ordered : graph.Ordered) (place : Nat) (failure : Failure) :
    ¬graph.FaultAt place failure := by
  rintro ⟨node, found, fault⟩
  obtain ⟨inner, last, outputSplit, -, notOutput⟩ := ordered.outputLast
  have noOutput : ∀ output ∈ graph.nodes.take place, output.op ≠ .output := by
    intro output earlier
    have inRange := (List.getElem?_eq_some_iff.mp found).1
    rw [outputSplit, List.length_append, List.length_singleton] at inRange
    rw [outputSplit, List.take_append_of_le_length (by omega)] at earlier
    exact notOutput output (List.mem_of_mem_take earlier)
  cases fault with
  | secondOutput earlier isOutput | behindOutput earlier isOutput =>
      exact noOutput _ earlier isOutput
  | lateInput _ isInput earlier notInput =>
      obtain ⟨inputs, others, split, areInputs, areOthers⟩ := ordered.inputsFirst
      rw [split] at found earlier
      rcases Nat.lt_or_ge place inputs.length with among | behind
      · rw [List.take_append_of_le_length (Nat.le_of_lt among)] at earlier
        exact notInput (areInputs _ (List.mem_of_mem_take earlier))
      · rw [List.getElem?_append_right behind] at found
        exact areOthers node (List.mem_of_getElem? found) isInput
  | unknownInput _ _ reads _ unknown =>
      refine unknown (mem_map_id_take_iff.mpr (ordered.readsEarlier place node found _ ?_))
      rw [reads]
      exact List.mem_append_right _ List.mem_cons_self

theorem Ordered.exists_output (ordered : graph.Ordered) :
    ∃ node ∈ graph.nodes, node.op = .output := by
  obtain ⟨inner, output, split, isOutput, -⟩ := ordered.outputLast
  exact ⟨output, by simp [split], isOutput⟩

theorem ordered_of_validate (valid : graph.validate = .ok ()) : graph.Ordered := by
  obtain ⟨closed, arranged⟩ := validate_eq_ok_iff.mp valid
  refine ⟨?_, ?_, fun place node found input isInput => ?_⟩
  · obtain ⟨others, split, noInput⟩ := arranged.exists_others
    exact ⟨_, others, split, fun node => op_of_mem_inputsOf, noInput⟩
  · obtain ⟨inner, output, split, isOutput⟩ := arranged.exists_output
    exact ⟨inner, output, split, isOutput, (split ▸ arranged).not_output⟩
  · obtain ⟨before, after, split, rfl⟩ := exists_split_of_getElem? found
    refine mem_map_id_take_iff.mp ?_
    rw [split, List.take_left]
    exact (split ▸ closed).mem_before isInput

theorem validate_of_faultless (faultless : ∀ place failure, ¬graph.FaultAt place failure)
    (hasOutput : ∃ node ∈ graph.nodes, node.op = .output) : graph.validate = .ok () := by
  rcases graph.validate_cases with ⟨failure, place, -, fault, -⟩ | ⟨-, ⟨-, noOutput⟩ | ⟨valid, -⟩⟩
  · exact absurd ((fault failure).mpr rfl) (faultless place failure)
  · obtain ⟨output, member, isOutput⟩ := hasOutput
    exact absurd isOutput (noOutput output member)
  · exact valid

/-- Validation fails with a fault if no node at a smaller place is at fault. -/
theorem validate_of_first_fault {place : Nat} {failure : Failure}
    (isFault : graph.FaultAt place failure)
    (first : ∀ earlier < place, ∀ other, ¬graph.FaultAt earlier other) :
    graph.validate = .error failure := by
  rcases graph.validate_cases with ⟨actual, found, failed, fault, foundFirst⟩ | ⟨faultless, -⟩
  · have isActual : graph.FaultAt found actual := (fault actual).mpr rfl
    obtain rfl : place = found := by
      rcases Nat.lt_trichotomy place found with earlier | same | later
      · exact absurd isFault (foundFirst place earlier failure)
      · exact same
      · exact absurd isActual (first found later actual)
    rw [failed, (fault failure).mp isFault]
  · exact absurd isFault (faultless place failure)

theorem validate_eq_error_iff {failure : Failure} :
    graph.validate = .error failure ↔
      (∃ place, graph.FaultAt place failure ∧
        ∀ earlier < place, ∀ other, ¬graph.FaultAt earlier other) ∨
      failure = .missingOutput ∧ (∀ place other, ¬graph.FaultAt place other) ∧
        ∀ node ∈ graph.nodes, node.op ≠ .output := by
  constructor
  · intro failed
    rcases graph.validate_cases with ⟨actual, place, outcome, fault, first⟩ |
      ⟨faultless, ⟨outcome, noOutput⟩ | ⟨outcome, -⟩⟩
    · obtain rfl := Except.error.inj (outcome.symm.trans failed)
      exact Or.inl ⟨place, (fault actual).mpr rfl, first⟩
    · obtain rfl := Except.error.inj (outcome.symm.trans failed)
      exact Or.inr ⟨rfl, faultless, noOutput⟩
    · cases outcome.symm.trans failed
  · rintro (⟨place, isFault, first⟩ | ⟨rfl, faultless, noOutput⟩)
    · exact validate_of_first_fault isFault first
    · rcases graph.validate_cases with ⟨actual, place, -, fault, -⟩ |
        ⟨-, ⟨outcome, -⟩ | ⟨-, output, member, isOutput⟩⟩
      · exact absurd ((fault actual).mpr rfl) (faultless place actual)
      · exact outcome
      · exact absurd isOutput (noOutput output member)

end Graph

/-- Validation accepts exactly the ordered graphs, which are those with an output in which no node
is at fault.  Otherwise it reports the fault at the smallest place, and only if no node is at fault
that there is no output. -/
theorem validation_reports_first_fault (graph : Graph) :
    (graph.validate = .ok () ↔ graph.Ordered) ∧
    (graph.Ordered ↔
      (∀ place failure, ¬graph.FaultAt place failure) ∧ ∃ node ∈ graph.nodes, node.op = .output) ∧
    ∀ failure, graph.validate = .error failure ↔
      (∃ place, graph.FaultAt place failure ∧
        ∀ earlier < place, ∀ other, ¬graph.FaultAt earlier other) ∨
      failure = .missingOutput ∧ (∀ place other, ¬graph.FaultAt place other) ∧
        ∀ node ∈ graph.nodes, node.op ≠ .output := by
  have accepted (ordered : graph.Ordered) : graph.validate = .ok () :=
    Graph.validate_of_faultless ordered.faultless ordered.exists_output
  refine ⟨⟨Graph.ordered_of_validate, accepted⟩, ⟨fun ordered => ?_, fun both => ?_⟩,
    fun failure => Graph.validate_eq_error_iff⟩
  · exact ⟨ordered.faultless, ordered.exists_output⟩
  · exact Graph.ordered_of_validate (Graph.validate_of_faultless both.1 both.2)

end OpGraph
