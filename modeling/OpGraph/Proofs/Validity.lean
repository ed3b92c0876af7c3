import Mathlib.Data.Set.Insert
import OpGraph.Graph.Validity
import OpGraph.Proofs.Identity

/-!
# What validation checks

Validation succeeds exactly on the graphs whose nodes read only earlier nodes (`Closed`) and whose
inputs come first and only output last (`Arranged`).  Both are stated for a part of a graph, with
what comes before it as a parameter, so that they can be followed through a change in the middle
of a graph.
-/

namespace OpGraph

namespace Graph

/-- Every node reads only nodes before it or among `defined`. -/
def Closed : Set NodeId → List Node → Prop
  | _, [] => True
  | defined, node :: rest =>
    (∀ input ∈ node.inputs, input ∈ defined) ∧ Closed (insert node.id defined) rest

/-- The inputs come first and the only output last; with `past`, nodes other than inputs have come
before. -/
def Arranged (past : Bool) : List Node → Prop
  | [] => False
  | node :: rest =>
    match node.op with
    | .output => rest = []
    | .placeholder => past = false ∧ Arranged false rest
    | _ => Arranged true rest

end Graph

namespace Op

/-- The operation reads an attribute or calls something, so it can stand between inputs and
output. -/
def IsInner (op : Op) : Prop :=
  op ≠ .placeholder ∧ op ≠ .output

theorem isInner_of_isCall {op : Op} (isCall : op.isCall = true) : op.IsInner := by
  cases op with
  | placeholder => cases isCall
  | output => cases isCall
  | getAttr | callFunction | callMethod | callModule => simp [IsInner]

theorem isInner_getAttr (path : String) : (getAttr path).IsInner := by
  simp [IsInner]

theorem ne_output_of_isInput {op : Op} (isInput : op = .placeholder) : op ≠ .output := by
  simp [isInput]

/-- An operation is an input, the output, or an inner one. -/
theorem cases_isInner (op : Op) : op = .placeholder ∨ op = .output ∨ op.IsInner := by
  by_cases isInput : op = .placeholder
  · exact Or.inl isInput
  · by_cases isOutput : op = .output
    · exact Or.inr (Or.inl isOutput)
    · exact Or.inr (Or.inr ⟨isInput, isOutput⟩)

end Op

namespace Graph

/-- Nodes that are absent stay so when a node with another identity is added. -/
theorem not_mem_insert_of_absent {node : Node} {rest : List Node} {done : Set NodeId}
    (distinct : node.id ∉ rest.map Node.id) (absent : ∀ other ∈ rest, other.id ∉ done) :
    ∀ other ∈ rest, other.id ∉ insert node.id done := by
  rintro other member (same | inside)
  · exact distinct (same ▸ List.mem_map_of_mem member)
  · exact absent other member inside

theorem closed_mono {smaller larger : Set NodeId} {nodes : List Node}
    (subset : smaller ⊆ larger) (closed : Closed smaller nodes) : Closed larger nodes := by
  induction nodes generalizing smaller larger with
  | nil => trivial
  | cons node rest ih =>
      refine ⟨fun input isInput => subset (closed.1 input isInput), ?_⟩
      exact ih (Set.insert_subset_insert subset) closed.2

theorem insert_union_ids (defined : Set NodeId) (node : Node) (rest : List Node) :
    insert node.id defined ∪ {id | id ∈ rest.map Node.id} =
      defined ∪ {id | id ∈ (node :: rest).map Node.id} := by
  ext id
  simp only [Set.mem_union, Set.mem_insert_iff, Set.mem_ofPred_eq, List.map_cons, List.mem_cons]
  tauto

theorem closed_append {defined : Set NodeId} {before after : List Node} :
    Closed defined (before ++ after) ↔
      Closed defined before ∧ Closed (defined ∪ {id | id ∈ before.map Node.id}) after := by
  induction before generalizing defined with
  | nil => simp [Closed]
  | cons node rest ih =>
      rw [List.cons_append, Closed, Closed, ih, insert_union_ids, and_assoc]

/-- A closed list stays so while it finds what it reads. -/
theorem Closed.restrict {defined smaller : Set NodeId} {nodes : List Node}
    (closed : Closed defined nodes)
    (found : ∀ node ∈ nodes, ∀ input ∈ node.inputs, input ∈ defined → input ∈ smaller) :
    Closed smaller nodes := by
  induction nodes generalizing defined smaller with
  | nil => trivial
  | cons node rest ih =>
      refine ⟨fun input isInput => ?_, ih closed.2 fun other member input isInput known => ?_⟩
      · exact found node List.mem_cons_self input isInput (closed.1 input isInput)
      · exact known.imp_right (found other (List.mem_cons_of_mem _ member) input isInput)

/-- What a closed list reads is defined or among its own nodes. -/
theorem Closed.mem_of_mem_inputs {defined : Set NodeId} {nodes : List Node}
    (closed : Closed defined nodes) {node : Node} (member : node ∈ nodes) {input : NodeId}
    (isInput : input ∈ node.inputs) : input ∈ defined ∨ input ∈ nodes.map Node.id := by
  obtain ⟨before, after, rfl⟩ := List.append_of_mem member
  rcases (closed_append.mp closed).2.1 input isInput with known | earlier
  · exact Or.inl known
  · refine Or.inr ?_
    rw [List.map_append]
    exact List.mem_append_left _ earlier

/-- What a node of a graph reads belongs to the graph. -/
theorem Closed.mem_ids {nodes : List Node} (closed : Closed ∅ nodes) {node : Node}
    (member : node ∈ nodes) {input : NodeId} (isInput : input ∈ node.inputs) :
    input ∈ nodes.map Node.id :=
  (closed.mem_of_mem_inputs member isInput).resolve_left (Set.notMem_empty input)

/-- Nodes that come after some others are not read by them. -/
theorem Closed.not_mem_inputs {before after : List Node} {node : Node}
    (closed : Closed ∅ (before ++ node :: after)) (absent : node.id ∉ before.map Node.id) :
    ∀ other ∈ before, node.id ∉ other.inputs := by
  intro other member isInput
  rcases (closed_append.mp closed).1.mem_of_mem_inputs member isInput with impossible | earlier
  · exact impossible
  · exact absent earlier

/-- A node reads nodes before it. -/
theorem Closed.mem_before {before after : List Node} {node : Node}
    (closed : Closed ∅ (before ++ node :: after)) {input : NodeId} (isInput : input ∈ node.inputs) :
    input ∈ before.map Node.id := by
  rcases (closed_append.mp closed).2.1 input isInput with impossible | earlier
  · exact impossible.elim
  · exact earlier

/-- A node is not read by itself. -/
theorem Closed.not_mem_own_inputs {before after : List Node} {node : Node}
    (closed : Closed ∅ (before ++ node :: after)) (absent : node.id ∉ before.map Node.id) :
    node.id ∉ node.inputs :=
  fun isInput => absent (closed.mem_before isInput)

/-- Redirecting readers from a defined node to an argument over defined nodes keeps a list
closed. -/
theorem Closed.redirect {defined : Set NodeId} {old : NodeId} {new : Arg} {nodes : List Node}
    (closed : Closed (insert old defined) nodes) (known : ∀ id ∈ new.refs, id ∈ defined)
    (absent : old ∉ nodes.map Node.id) : Closed defined (nodes.map (Node.redirect old new)) := by
  induction nodes generalizing defined with
  | nil => trivial
  | cons node rest ih =>
      simp only [List.map_cons, List.mem_cons, not_or] at absent
      refine ⟨fun input isInput => ?_, ih ?_ ?_ absent.2⟩
      · rcases Node.mem_inputs_redirect isInput with ⟨kept, different⟩ | ⟨-, inNew⟩
        · exact (closed.1 input kept).resolve_left different
        · exact known input inNew
      · rw [Set.insert_comm]
        exact closed.2
      · exact fun id isRef => Set.mem_insert_of_mem _ (known id isRef)

theorem arranged_cons_input {past : Bool} {node : Node} {rest : List Node}
    (isInput : node.op = .placeholder) :
    Arranged past (node :: rest) ↔ past = false ∧ Arranged false rest := by
  rw [Arranged, isInput]

theorem arranged_cons_output {past : Bool} {node : Node} {rest : List Node}
    (isOutput : node.op = .output) : Arranged past (node :: rest) ↔ rest = [] := by
  rw [Arranged, isOutput]

theorem arranged_cons_inner {past : Bool} {node : Node} {rest : List Node}
    (inner : node.op.IsInner) : Arranged past (node :: rest) ↔ Arranged true rest := by
  rw [Arranged]
  split
  · next isOutput => exact absurd isOutput inner.2
  · next isInput => exact absurd isInput inner.1
  · rfl

/-- What may follow inner nodes may follow inputs as well. -/
theorem Arranged.of_past {past : Bool} {nodes : List Node} (arranged : Arranged true nodes) :
    Arranged past nodes := by
  cases nodes with
  | nil => exact arranged
  | cons node rest =>
      rcases node.op.cases_isInner with isInput | isOutput | inner
      · cases ((arranged_cons_input isInput).mp arranged).1
      · rw [arranged_cons_output isOutput] at arranged ⊢
        exact arranged
      · rw [arranged_cons_inner inner] at arranged ⊢
        exact arranged

/-- Inner nodes can be placed before anything that may follow inner nodes. -/
theorem Arranged.append_inner {past : Bool} {added after : List Node}
    (arranged : Arranged true after) (inner : ∀ node ∈ added, node.op.IsInner) :
    Arranged past (added ++ after) := by
  induction added generalizing past with
  | nil => exact arranged.of_past
  | cons node rest ih =>
      rw [List.cons_append, arranged_cons_inner (inner node List.mem_cons_self)]
      exact ih fun other member => inner other (List.mem_cons_of_mem _ member)

/-- What follows some nodes of an arrangement is arranged. -/
theorem Arranged.of_append {past : Bool} {before after : List Node} {node : Node}
    (arranged : Arranged past (before ++ node :: after)) :
    ∃ past, Arranged past (node :: after) := by
  induction before generalizing past with
  | nil => exact ⟨past, arranged⟩
  | cons first rest ih =>
      rw [List.cons_append] at arranged
      rcases first.op.cases_isInner with isInput | isOutput | inner
      · exact ih ((arranged_cons_input isInput).mp arranged).2
      · rw [arranged_cons_output isOutput] at arranged
        simp at arranged
      · exact ih ((arranged_cons_inner inner).mp arranged)

/-- Only the last node of an arrangement is an output. -/
theorem Arranged.not_output {past : Bool} {before after : List Node} {node : Node}
    (arranged : Arranged past (before ++ node :: after)) :
    ∀ other ∈ before, other.op ≠ .output := by
  induction before generalizing past with
  | nil => exact fun _ member => absurd member List.not_mem_nil
  | cons first rest ih =>
      rw [List.cons_append] at arranged
      rcases first.op.cases_isInner with isInput | isOutput | inner
      · rw [arranged_cons_input isInput] at arranged
        refine List.forall_mem_cons.mpr ⟨?_, ih arranged.2⟩
        rw [isInput]
        exact Op.noConfusion
      · rw [arranged_cons_output isOutput] at arranged
        simp at arranged
      · rw [arranged_cons_inner inner] at arranged
        exact List.forall_mem_cons.mpr ⟨inner.2, ih arranged⟩

/-- An arrangement ends with an output. -/
theorem Arranged.exists_output {past : Bool} {nodes : List Node} (arranged : Arranged past nodes) :
    ∃ before output, nodes = before ++ [output] ∧ output.op = .output := by
  induction nodes generalizing past with
  | nil => exact arranged.elim
  | cons first rest ih =>
      have later : ∀ {past}, Arranged past rest →
          ∃ before output, first :: rest = before ++ [output] ∧ output.op = .output := by
        intro past arrangedRest
        obtain ⟨before, output, split, isOutput⟩ := ih arrangedRest
        exact ⟨first :: before, output, by rw [split]; rfl, isOutput⟩
      rcases first.op.cases_isInner with isInput | isOutput | inner
      · exact later ((arranged_cons_input isInput).mp arranged).2
      · obtain rfl := (arranged_cons_output isOutput).mp arranged
        exact ⟨[], first, rfl, isOutput⟩
      · exact later ((arranged_cons_inner inner).mp arranged)

/-- The end of an arrangement, from some node on, can be exchanged for one that fits as well. -/
theorem Arranged.exchange {past : Bool} {before after new : List Node} {node : Node}
    (arranged : Arranged past (before ++ node :: after))
    (fits : ∀ past, Arranged past (node :: after) → Arranged past new) :
    Arranged past (before ++ new) := by
  induction before generalizing past with
  | nil => exact fits past arranged
  | cons first rest ih =>
      rw [List.cons_append] at arranged ⊢
      rcases first.op.cases_isInner with isInput | isOutput | inner
      · rw [arranged_cons_input isInput] at arranged ⊢
        exact ⟨arranged.1, ih arranged.2⟩
      · rw [arranged_cons_output isOutput] at arranged
        simp at arranged
      · rw [arranged_cons_inner inner] at arranged ⊢
        exact ih arranged

/-- An arrangement depends on the operations only. -/
theorem arranged_map_redirect {past : Bool} (old : NodeId) (new : Arg) (nodes : List Node) :
    Arranged past (nodes.map (Node.redirect old new)) ↔ Arranged past nodes := by
  induction nodes generalizing past with
  | nil => rfl
  | cons node rest ih =>
      simp only [List.map_cons, Arranged, Node.op_redirect, ih, List.map_eq_nil_iff]

/-! ### Validation -/

namespace Survey

/-- The survey after a node without fault. -/
def extend (survey : Survey) (node : Node) : Survey where
  defined := node.id :: survey.defined
  pastInputs := survey.pastInputs || node.op ≠ .placeholder
  output := if node.op = .output then some node.name else none

theorem visit_eq_ok_iff {graph : Graph} {survey next : Survey} {node : Node}
    (pending : survey.output = none) :
    survey.visit graph node = .ok next ↔
      (∀ input ∈ node.inputs, input ∈ survey.defined) ∧
        ¬(node.op = .placeholder ∧ survey.pastInputs = true) ∧ survey.extend node = next := by
  unfold visit
  rw [pending]
  dsimp only
  split
  · next late => simp [late]
  · next early =>
    split
    · next input found =>
      have unknown := List.find?_some found
      have isInput := List.mem_of_find?_eq_some found
      simp only [reduceCtorEq, false_iff]
      rintro ⟨known, -⟩
      simp [known input isInput] at unknown
    · next none =>
      have known : ∀ input ∈ node.inputs, input ∈ survey.defined := by
        simpa [List.find?_eq_none] using none
      constructor
      · intro success
        exact ⟨known, early, Except.ok.inj success⟩
      · rintro ⟨-, -, rfl⟩
        rfl

/-- The survey goes through the nodes without fault and finds an output. -/
def Completes (graph : Graph) (survey : Survey) (nodes : List Node) : Prop :=
  ∃ final, nodes.foldlM (visit graph) survey = .ok final ∧ final.output.isSome

theorem completes_cons {graph : Graph} {survey : Survey} {node : Node} {rest : List Node}
    (pending : survey.output = none) :
    survey.Completes graph (node :: rest) ↔
      (∀ input ∈ node.inputs, input ∈ survey.defined) ∧
        ¬(node.op = .placeholder ∧ survey.pastInputs = true) ∧
          (survey.extend node).Completes graph rest := by
  simp only [Completes, List.foldlM_cons]
  constructor
  · rintro ⟨final, success, found⟩
    obtain ⟨next, visited, remaining⟩ := Outcome.bind_eq_ok.mp success
    obtain ⟨known, early, rfl⟩ := (visit_eq_ok_iff pending).mp visited
    exact ⟨known, early, final, remaining, found⟩
  · rintro ⟨known, early, final, remaining, found⟩
    have visited := (@visit_eq_ok_iff graph _ _ _ pending).mpr ⟨known, early, rfl⟩
    exact ⟨final, Outcome.bind_eq_ok.mpr ⟨_, visited, remaining⟩, found⟩

/-- Once the output has been visited, nothing may follow. -/
theorem completes_after_output {graph : Graph} {survey : Survey} {nodes : List Node}
    (found : survey.output.isSome) : survey.Completes graph nodes ↔ nodes = [] := by
  obtain ⟨name, output⟩ := Option.isSome_iff_exists.mp found
  constructor
  · rintro ⟨final, success, -⟩
    cases nodes with
    | nil => rfl
    | cons node rest =>
        rw [List.foldlM_cons] at success
        obtain ⟨next, visited, -⟩ := Outcome.bind_eq_ok.mp success
        rw [visit, output] at visited
        cases visited
  · rintro rfl
    exact ⟨survey, rfl, found⟩

theorem completes_iff {graph : Graph} {survey : Survey} {nodes : List Node}
    (pending : survey.output = none) :
    survey.Completes graph nodes ↔
      Closed {id | id ∈ survey.defined} nodes ∧ Arranged survey.pastInputs nodes := by
  induction nodes generalizing survey with
  | nil =>
      simp only [Completes, List.foldlM_nil, Arranged, and_false, iff_false]
      rintro ⟨final, success, found⟩
      obtain rfl := Except.ok.inj success
      rw [pending] at found
      cases found
  | cons node rest ih =>
      have grown : {id | id ∈ (survey.extend node).defined} =
          insert node.id {id | id ∈ survey.defined} := by
        ext id
        simp only [extend, Set.mem_ofPred_eq, List.mem_cons, Set.mem_insert_iff]
      rw [completes_cons pending]
      simp only [Closed, Set.mem_ofPred_eq]
      rcases node.op.cases_isInner with isInput | isOutput | inner
      · rw [ih (by simp [extend, isInput]), grown, arranged_cons_input isInput]
        cases past : survey.pastInputs <;> simp [extend, isInput, past, and_assoc]
      · have closed : (survey.extend node).Completes graph rest ↔ rest = [] :=
          completes_after_output (by simp [extend, isOutput])
        rw [closed, arranged_cons_output isOutput]
        constructor
        · rintro ⟨known, -, rfl⟩
          exact ⟨⟨known, trivial⟩, rfl⟩
        · rintro ⟨⟨known, -⟩, rfl⟩
          exact ⟨known, by simp [isOutput], rfl⟩
      · rw [ih (by simp [extend, inner.2]), grown, arranged_cons_inner inner]
        simp [extend, inner.1, and_assoc]

end Survey

/-- Nodes that make up a valid graph: they read only earlier nodes, the inputs come first and the
only output last. -/
structure Valid (nodes : List Node) : Prop where
  /-- Every node reads only nodes before it. -/
  closed : Closed ∅ nodes
  /-- Inputs first, the only output last. -/
  arranged : Arranged false nodes

theorem validate_eq_ok_iff {graph : Graph} : graph.validate = .ok () ↔ Valid graph.nodes := by
  have none : {id | id ∈ ({} : Survey).defined} = (∅ : Set NodeId) := by
    ext id
    simp
  have survey : ({} : Survey).Completes graph graph.nodes ↔ Valid graph.nodes := by
    rw [Survey.completes_iff rfl, none]
    exact ⟨fun both => ⟨both.1, both.2⟩, fun valid => ⟨valid.closed, valid.arranged⟩⟩
  rw [← survey, validate, Outcome.bind_eq_ok]
  constructor
  · rintro ⟨final, success, checked⟩
    refine ⟨final, success, ?_⟩
    split at checked
    · next found => simp [found]
    · cases checked
  · rintro ⟨final, success, found⟩
    obtain ⟨name, output⟩ := Option.isSome_iff_exists.mp found
    exact ⟨final, success, by rw [output]; rfl⟩

/-- An inner node can be replaced by inner nodes that read earlier ones, if its readers then read
an argument over these or earlier nodes. -/
theorem Valid.replace {before added after : List Node} {node : Node} {new : Arg}
    (valid : Valid (before ++ node :: after)) (inner : node.op.IsInner)
    (absent : node.id ∉ after.map Node.id)
    (innerAdded : ∀ other ∈ added, other.op.IsInner)
    (closedAdded : Closed {id | id ∈ before.map Node.id} added)
    (known : ∀ id ∈ new.refs, id ∈ (before ++ added).map Node.id) :
    Valid (before ++ added ++ after.map (Node.redirect node.id new)) := by
  obtain ⟨closedBefore, -, closedAfter⟩ := closed_append.mp valid.closed
  constructor
  · rw [closed_append, closed_append]
    refine ⟨⟨closedBefore, by simpa using closedAdded⟩, Closed.redirect ?_ ?_ absent⟩
    · refine closed_mono ?_ closedAfter
      apply Set.insert_subset_insert
      intro id member
      simp only [Set.empty_union, Set.mem_ofPred_eq, List.map_append, List.mem_append] at member ⊢
      exact Or.inl member
    · intro id isRef
      exact Or.inr (known id isRef)
  · rw [List.append_assoc]
    refine valid.arranged.exchange fun past arranged => Arranged.append_inner ?_ innerAdded
    rw [arranged_map_redirect]
    exact (arranged_cons_inner inner).mp arranged

end Graph

end OpGraph
