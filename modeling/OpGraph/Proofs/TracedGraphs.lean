import OpGraph.Proofs.InputPreservation
import OpGraph.Proofs.TraceRecords

/-!
# Traced graphs

All bodies write into one graph, and each reads it through an environment of its own.  What a body
can read is known when it is entered or recorded since, so the recorded nodes read only earlier ones
(`Tracing.Records.accessible`), whatever the bodies look like.  Only the outermost body records
inputs, and no body records an output, so a trace is arranged as the outermost body is.
-/

namespace OpGraph

namespace Graph

/-- The nodes before the first output. -/
def beforeOutput (nodes : List Node) : List Node :=
  nodes.takeWhile fun node => node.op ≠ .output

theorem beforeOutput_cons {node : Node} (notOutput : node.op ≠ .output) (rest : List Node) :
    beforeOutput (node :: rest) = node :: beforeOutput rest :=
  List.takeWhile_cons_of_pos (by simpa using notOutput)

/-- A list with its only output at the end. -/
theorem beforeOutput_concat {nodes : List Node} {last : Node}
    (notOutput : ∀ node ∈ nodes, node.op ≠ .output) (isOutput : last.op = .output) :
    beforeOutput (nodes ++ [last]) = nodes := by
  rw [beforeOutput, List.takeWhile_append_of_pos (by simpa using notOutput),
    List.takeWhile_cons_of_neg (by simpa using isOutput), List.append_nil]

theorem inputsOf_cons_of_isInput {node : Node} (isInput : node.op = .placeholder)
    (rest : List Node) : inputsOf (node :: rest) = node :: inputsOf rest :=
  List.filter_cons_of_pos (by simpa using isInput)

theorem inputsOf_cons_of_isInner {node : Node} (isInner : node.op.IsInner) (rest : List Node) :
    inputsOf (node :: rest) = inputsOf rest :=
  List.filter_cons_of_neg (by simpa using isInner.1)

/-- An inner node changes nothing about the inputs before the first output. -/
theorem inputsOf_beforeOutput_cons {node : Node} (isInner : node.op.IsInner) (rest : List Node) :
    inputsOf (beforeOutput (node :: rest)) = inputsOf (beforeOutput rest) := by
  rw [beforeOutput_cons isInner.2, inputsOf_cons_of_isInner isInner]

theorem inputsOf_concat_output {output : Node} (isOutput : output.op = .output)
    (nodes : List Node) : inputsOf (nodes ++ [output]) = inputsOf nodes := by
  have none : inputsOf [output] = [] := List.filter_cons_of_neg (by simp [isOutput])
  rw [inputsOf_append, none, List.append_nil]

end Graph

theorem Env.within_insert_ref {env : Env} {known : Set NodeId} (within : env.Within known)
    (id new : NodeId) : Env.Within (env.insert id (.ref new)) (insert new known) :=
  within.insert (Set.subset_insert _ _)
    (fun target isRef => Or.inl (by simpa [Argument.refs] using isRef)) id

theorem Op.isInner_callModule (path : String) : (callModule path).IsInner :=
  isInner_of_isCall rfl

/-- The nodes that are put under a scope are inner ones. -/
theorem Node.Relocated.isInner_source {scope : String} {env : Env} {node : Node}
    {instruction : Instruction} (relocated : node.Relocated scope env instruction) :
    node.op.IsInner := by
  cases relocated with
  | read isAttribute =>
      rw [isAttribute]
      exact Op.isInner_getAttr _
  | call isCall => exact Op.isInner_of_isCall isCall

namespace Tracing

/-- The machine has come to the input `source` of the outermost body, and `copy` is what it records
for it: the same instruction with its references looked up in the environment of that body, under
the next number that the graph has for the name of `source`. -/
structure Machine.Copies (machine : Machine) (source copy : Node) : Prop where
  outermost : machine.callers = []
  next : ∃ rest, machine.frame.pending = source :: rest
  read : source.toInstruction.traverse machine.frame.env.value = .ok copy.toInstruction
  id_eq : copy.id = machine.graph.nextId
  named : copy.name = numberedName (Dotted.flatten source.name)
    (machine.graph.nameUses.getD (Dotted.flatten source.name) 0)

/-- A trace of `root` records a node as the copy of an input of its body. -/
def CopiedAs (leaf : LeafPolicy) (root : Submodule) (source copy : Node) : Prop :=
  ∃ frame machine, Frame.enter root "" none = .ok frame ∧
    Machine.Reaches leaf ⟨{}, frame, []⟩ machine ∧ machine.Copies source copy

/-- Nodes that read known ones and each other, and a value over both. -/
structure Accessible (known : Set NodeId) (added : List Node) (value : Arg) : Prop where
  closed : Graph.Closed known added
  refs : ∀ id ∈ value.refs, id ∈ known ∪ {id | id ∈ added.map Node.id}

theorem Accessible.cons {known : Set NodeId} {graph : Graph} {instruction : Instruction}
    {hint : Option String} {added : List Node} {value : Arg}
    (reads : ∀ input ∈ instruction.inputs, input ∈ known)
    (later : Accessible (insert graph.nextId known) added value) :
    Accessible known (graph.newNode instruction hint :: added) value := by
  refine ⟨⟨reads, later.closed⟩, fun id isRef => ?_⟩
  rw [← Graph.insert_union_ids]
  exact later.refs id isRef

theorem Accessible.append {known : Set NodeId} {inside added : List Node} {returned value : Arg}
    (first : Accessible known inside returned)
    (later : Accessible (known ∪ {id | id ∈ inside.map Node.id}) added value) :
    Accessible known (inside ++ added) value := by
  refine ⟨Graph.closed_append.mpr ⟨first.closed, later.closed⟩, fun id isRef => ?_⟩
  rw [List.map_append]
  rcases later.refs id isRef with (earlier | isInside) | isLater
  · exact Or.inl earlier
  · exact Or.inr (List.mem_append_left _ isInside)
  · exact Or.inr (List.mem_append_right _ isLater)

/-- The arguments of a call refer to known nodes only. -/
structure CallInputs.Within (inputs : CallInputs) (known : Set NodeId) : Prop where
  positional : ∀ argument ∈ inputs.positional, ∀ id ∈ argument.refs, id ∈ known
  keyword : ∀ (name : String) (argument : Arg), inputs.keyword[name]? = some argument →
    ∀ id ∈ argument.refs, id ∈ known

theorem CallInputs.Within.hands {inputs left : CallInputs} {known : Set NodeId} {name : String}
    {argument : Arg} (within : inputs.Within known) (hands : inputs.Hands name argument left) :
    (∀ id ∈ argument.refs, id ∈ known) ∧ left.Within known := by
  cases hands with
  | positional =>
      obtain ⟨first, others⟩ := List.forall_mem_cons.mp within.positional
      exact ⟨first, others, within.keyword⟩
  | keyword named => exact ⟨within.keyword name argument named, within⟩

theorem CallInputs.Within.mono {inputs : CallInputs} {known larger : Set NodeId}
    (within : inputs.Within known) (subset : known ⊆ larger) : inputs.Within larger :=
  ⟨fun argument member id isRef => subset (within.positional argument member id isRef),
    fun name argument found id isRef => subset (within.keyword name argument found id isRef)⟩

/-- The arguments that a call reads through an environment are known if the environment is. -/
theorem CallInputs.within_of_traverse {env : Env} {known : Set NodeId} {node : Node}
    {call : Instruction} (within : env.Within known)
    (read : node.toInstruction.traverse env.value = .ok call) (supplied : Nat) :
    CallInputs.Within ⟨call.args, call.kwargs, supplied⟩ known := by
  have inputsKnown := within.inputs_traverse read
  refine ⟨fun argument member id isRef => ?_, fun name argument found id isRef => ?_⟩
  · refine inputsKnown id (Instruction.mem_inputs.mpr (Or.inl ?_))
    exact Argument.mem_refsAll.mpr ⟨argument, member, isRef⟩
  · refine inputsKnown id (Instruction.mem_inputs.mpr (Or.inr ?_))
    exact Kwargs.mem_refs.mpr ⟨name, argument, found, isRef⟩

/-- The output of a trace reads what the returned value refers to. -/
theorem mem_refs_of_output {value : Arg} {input : NodeId}
    (isInput : input ∈ ({ op := .output, args := [value] } : Instruction).inputs) :
    input ∈ value.refs := by
  rcases Instruction.mem_inputs.mp isInput with inArgs | inKwargs
  · obtain ⟨argument, member, isRef⟩ := Argument.mem_refsAll.mp inArgs
    rwa [List.mem_singleton.mp member] at isRef
  · obtain ⟨keyword, argument, found, -⟩ := Kwargs.mem_refs.mp inKwargs
    rw [Std.ExtTreeMap.getElem?_empty] at found
    cases found

namespace Records

variable {leaf : LeafPolicy} {owner : Submodule} {scope : String} {nodes added : List Node}
variable {inputs : Option CallInputs} {env : Env} {graph final : Graph} {value : Arg}

/-- The recorded nodes read known ones and each other. -/
theorem accessible {known : Set NodeId}
    (records : Records leaf owner scope nodes inputs env graph added final value)
    (within : env.Within known) (handed : ∀ given ∈ inputs, given.Within known) :
    Accessible known added value := by
  induction records generalizing known with
  | input _ _ read _ ih =>
      refine .cons (within.inputs_traverse read) (ih (Env.within_insert_ref within _ _) ?_)
      rintro given ⟨⟩
  | argument _ _ hands _ ih =>
      obtain ⟨isKnown, left⟩ := (handed _ rfl).hands hands
      refine ih (within.insert subset_rfl isKnown _) ?_
      rintro given ⟨⟩
      exact left
  | inner _ relocated _ ih =>
      refine .cons (relocated.inputs_known within) (ih (Env.within_insert_ref within _ _) ?_)
      exact fun given isGiven => (handed given isGiven).mono (Set.subset_insert _ _)
  | kept _ _ _ read _ ih =>
      have reads := within.inputs_traverse read
      refine .cons reads (ih (Env.within_insert_ref within _ _) ?_)
      exact fun given isGiven => (handed given isGiven).mono (Set.subset_insert _ _)
  | @entered _ _ _ _ _ _ _ inside _ _ _ _ _ _ _ _ _ _ _ _ read _ _ _ ihInside ihLater =>
      have recorded : Accessible known inside _ := ihInside (Env.within_empty known) (by
        rintro given ⟨⟩
        exact CallInputs.within_of_traverse within read _)
      have grown : known ⊆ known ∪ {id | id ∈ inside.map Node.id} := Set.subset_union_left
      refine recorded.append (ihLater (within.insert grown recorded.refs _) ?_)
      exact fun given isGiven => (handed given isGiven).mono grown
  | output _ found =>
      exact ⟨trivial, fun id isRef => Or.inl (within.refs_traverse found id isRef)⟩

/-- A trace of an outermost body, with the output at its end, reads its own nodes only. -/
theorem closed (records : Records leaf owner scope nodes none ∅ graph added final value) :
    Graph.Closed ∅ (added ++ [final.newNode { op := .output, args := [value] } none]) := by
  have accessible : Accessible ∅ added value :=
    records.accessible (Env.within_empty ∅) fun given isGiven => nomatch isGiven
  rw [Graph.closed_append]
  exact ⟨accessible.closed, fun input isInput => accessible.refs input
    (mem_refs_of_output isInput), trivial⟩

/-- What is recorded is inner, but for the inputs of the outermost body. -/
theorem op_of_mem (records : Records leaf owner scope nodes inputs env graph added final value) :
    ∀ node ∈ added, node.op.IsInner ∨ inputs = none ∧ node.op = .placeholder := by
  induction records with
  | input isInput _ read _ ih =>
      refine List.forall_mem_cons.mpr ⟨Or.inr ⟨rfl, ?_⟩, ih⟩
      exact (Instruction.op_traverse read).trans isInput
  | argument _ _ _ _ ih =>
      exact fun node member => Or.inl ((ih node member).resolve_right fun input => nomatch input.1)
  | inner _ relocated _ ih => exact List.forall_mem_cons.mpr ⟨Or.inl relocated.isInner, ih⟩
  | kept _ _ _ _ _ ih =>
      exact List.forall_mem_cons.mpr ⟨Or.inl (Op.isInner_of_isCall rfl), ih⟩
  | entered _ _ _ _ _ _ _ ihInside ihLater =>
      refine List.forall_mem_append.mpr ⟨fun node member => Or.inl ?_, ihLater⟩
      exact (ihInside node member).resolve_right fun input => nomatch input.1
  | output => exact fun _ member => absurd member List.not_mem_nil

/-- What a called body records is inner. -/
theorem isInner {given : CallInputs}
    (records : Records leaf owner scope nodes (some given) env graph added final value) :
    ∀ node ∈ added, node.op.IsInner :=
  fun node member => (records.op_of_mem node member).resolve_right fun input => nomatch input.1

theorem notOutput (records : Records leaf owner scope nodes inputs env graph added final value) :
    ∀ node ∈ added, node.op ≠ .output := by
  intro node member
  rcases records.op_of_mem node member with isInner | ⟨-, isInput⟩
  · exact isInner.2
  · exact Op.ne_output_of_isInput isInput

/-- A trace is arranged as the body is. -/
theorem arranged {past : Bool} {last : Node}
    (records : Records leaf owner scope nodes inputs env graph added final value)
    (isOutput : last.op = .output) (arranged : Graph.Arranged past nodes) :
    Graph.Arranged past (added ++ [last]) := by
  induction records generalizing past with
  | input isInput _ read _ ih =>
      obtain ⟨rfl, later⟩ := (Graph.arranged_cons_input isInput).mp arranged
      have isCopy := (Instruction.op_traverse read).trans isInput
      exact (Graph.arranged_cons_input isCopy).mpr ⟨rfl, ih later⟩
  | argument isInput _ _ _ ih =>
      obtain ⟨rfl, later⟩ := (Graph.arranged_cons_input isInput).mp arranged
      exact ih later
  | inner _ relocated _ ih =>
      have later := (Graph.arranged_cons_inner relocated.isInner_source).mp arranged
      exact (Graph.arranged_cons_inner relocated.isInner).mpr (ih later)
  | kept isCall _ _ _ _ ih =>
      have later := (Graph.arranged_cons_inner (isCall ▸ Op.isInner_callModule _)).mp arranged
      exact (Graph.arranged_cons_inner (Op.isInner_callModule _)).mpr (ih later)
  | entered isCall _ _ _ _ within _ _ ihLater =>
      have later := (Graph.arranged_cons_inner (isCall ▸ Op.isInner_callModule _)).mp arranged
      rw [List.append_assoc]
      exact (ihLater later).append_inner within.isInner
  | output => exact (Graph.arranged_cons_output isOutput).mpr rfl

/-- The inputs that the outermost body records are copies of its inputs before the first output,
each made by the machine when it comes to the input. -/
theorem copies {start : Machine}
    (records : Records leaf owner scope nodes none env graph added final value) (body : Graph)
    (reached : Machine.Reaches leaf start ⟨graph, ⟨owner, body, nodes, scope, env, none⟩, []⟩) :
    List.Forall₂ (fun source copy => ∃ machine, Machine.Reaches leaf start machine ∧
        machine.Copies source copy)
      (Graph.inputsOf (Graph.beforeOutput nodes)) (Graph.inputsOf added) := by
  generalize outermost : none = inputs at records
  induction records with
  | @input _ _ node rest added env graph _ _ instruction isInput accepted read _ ih =>
      have isCopy : (graph.newNode instruction node.copyHint).op = .placeholder :=
        (Instruction.op_traverse read).trans isInput
      have named : (graph.newNode instruction node.copyHint).name =
          numberedName (Dotted.flatten node.name)
            (graph.nameUses.getD (Dotted.flatten node.name) 0) := by
        rw [Node.copyHint, isInput]
        exact graph.freshName_eq _
      rw [Graph.beforeOutput_cons (Op.ne_output_of_isInput isInput),
        Graph.inputsOf_cons_of_isInput isInput, Graph.inputsOf_cons_of_isInput isCopy]
      refine .cons ⟨_, reached, rfl, ⟨rest, rfl⟩, read, rfl, named⟩ (ih ?_ rfl)
      exact .tail reached (Machine.step_input rfl isInput accepted rfl read)
  | argument => cases outermost
  | inner notCall relocated _ ih =>
      subst outermost
      rw [Graph.inputsOf_beforeOutput_cons relocated.isInner_source,
        Graph.inputsOf_cons_of_isInner relocated.isInner]
      exact ih (.tail reached (Machine.step_inner rfl notCall relocated)) rfl
  | kept isCall found isLeaf read _ ih =>
      subst outermost
      rw [Graph.inputsOf_beforeOutput_cons (isCall ▸ Op.isInner_callModule _),
        Graph.inputsOf_cons_of_isInner (Op.isInner_callModule _)]
      exact ih (.tail reached (Machine.step_kept rfl isCall found isLeaf read)) rfl
  | entered isCall found noLeaf read hasBody within _ _ ihLater =>
      subst outermost
      rw [Graph.inputsOf_beforeOutput_cons (isCall ▸ Op.isInner_callModule _),
        Graph.inputsOf_append,
        Graph.inputsOf_eq_nil fun other member => (within.isInner other member).1]
      have entering : Machine.Reaches leaf start _ :=
        .tail reached (Machine.step_entered rfl isCall found noLeaf read hasBody)
      exact ihLater (entering.trans (within.reaches _ _ _ _)) rfl
  | @output _ _ node rest _ _ _ _ isOutput =>
      have none : Graph.beforeOutput (node :: rest) = [] :=
        List.takeWhile_cons_of_neg (by simpa using isOutput)
      rw [none]
      exact .nil

end Records

end Tracing

/-- A trace reads only earlier nodes and ends with its only output, of one argument.  Its inputs are
copies of those of the outermost body, and it is valid if that body is. -/
theorem traced_graphs_are_closed {leaf : LeafPolicy} {submodule : Submodule} {graph : Graph}
    (success : (trace leaf submodule).outcome = .ok graph) :
    graph.ids.Nodup ∧
    (∀ before node after, graph.nodes = before ++ node :: after →
      ∀ input ∈ node.inputs, input ∈ before.map Node.id) ∧
    (∃ inner output value, graph.nodes = inner ++ [output] ∧
      output.toInstruction = { op := .output, args := [value] } ∧
      ∀ node ∈ inner, node.op ≠ .output) ∧
    (∃ body, submodule.body = some body ∧
      List.Forall₂ (Tracing.CopiedAs leaf submodule)
        (Graph.inputsOf (Graph.beforeOutput body.nodes)) graph.inputNodes ∧
      (body.validate = .ok () → graph.validate = .ok ())) ∧
    (leaf = flattenAll → ∀ node ∈ graph.nodes, node.op.isModuleCall = false) := by
  obtain ⟨body, added, final, value, hasBody, records, wellFormed, nodes⟩ :=
    Tracing.exists_records success
  have closed : Graph.Closed ∅ graph.nodes := nodes ▸ records.closed
  refine ⟨wellFormed.distinct, ?_, ⟨added, _, value, nodes, rfl, records.notOutput⟩,
    ⟨body, hasBody, ?_, fun valid => ?_⟩, ?_⟩
  · intro before node after split input isInput
    exact (split ▸ closed).mem_before isInput
  · have entering : Tracing.Frame.enter submodule "" none =
        .ok ⟨submodule, body, body.nodes, "", ∅, none⟩ := by
      rw [Tracing.Frame.enter, hasBody]
    have inputs : graph.inputNodes = Graph.inputsOf added := by
      rw [Graph.inputNodes, nodes]
      exact Graph.inputsOf_concat_output rfl added
    rw [inputs]
    refine (records.copies body .refl).imp fun source copy made => ?_
    obtain ⟨machine, reached, copies⟩ := made
    exact ⟨_, machine, entering, reached, copies⟩
  · have arranged := (Graph.validate_eq_ok_iff.mp valid).arranged
    exact Graph.validate_eq_ok_iff.mpr ⟨closed, nodes ▸ records.arranged rfl arranged⟩
  · rintro rfl node member
    simpa using List.countP_eq_zero.mp (moduleCalls_trace success) node member

/-- Keeps the calls of submodules without a body. -/
def keepOpaque : LeafPolicy := fun submodule _ => submodule.body.isNone

/-- A body with an input after a call, and with a second output that reads an unknown node. -/
def looseModule : Submodule where
  className := "Loose"
  body := some
    { nodes :=
        [{ op := .placeholder, id := ⟨0⟩, name := "left" },
          { op := .callModule "inner", args := [.ref ⟨0⟩], id := ⟨1⟩, name := "inner" },
          { op := .placeholder, id := ⟨2⟩, name := "right" },
          { op := .getAttr "weight", id := ⟨3⟩, name := "weight" },
          { op := .output, args := [.tuple [.ref ⟨1⟩, .ref ⟨2⟩, .ref ⟨3⟩]], id := ⟨4⟩,
            name := "output" },
          { op := .output, args := [.ref ⟨9⟩], id := ⟨5⟩, name := "output_1" }]
      created := 6 }
  children := [("inner", { className := "Inner" })]

/-- An input that refers to another one. -/
def derivedInput : Node :=
  { op := .placeholder, args := [.ref ⟨0⟩], id := ⟨1⟩, name := "first_input" }

/-- A valid body that calls the other one by a path of two segments. -/
def looseCaller : Submodule where
  className := "Caller"
  body := some
    { nodes :=
        [{ op := .placeholder, id := ⟨0⟩, name := "first.input" },
          derivedInput,
          { op := .callModule "block.loose", args := [.ref ⟨1⟩],
            kwargs := (∅ : Kwargs NodeId).insert "right" (.ref ⟨0⟩), id := ⟨2⟩, name := "loose" },
          { op := .callMethod "relu", args := [.ref ⟨2⟩], id := ⟨3⟩, name := "relu" },
          { op := .output, args := [.ref ⟨3⟩, .ref ⟨2⟩], id := ⟨4⟩, name := "output" }]
      created := 5 }
  children := [("block", { className := "Block", children := [("loose", looseModule)] })]

theorem looseCaller_traced_closed :
    ∃ graph, (trace keepOpaque looseCaller).outcome = .ok graph ∧ graph.size = 6 ∧
      graph.validate = .ok () ∧
      ∃ first second, graph.inputNodes = [first, second] ∧
        Tracing.CopiedAs keepOpaque looseCaller derivedInput second ∧
          second.args = [.ref first.id] := by
  have found : (traceWithin keepOpaque 100 looseCaller).any
      (fun report => report.outcome.toOption.any fun graph => graph.size = 6 ∧
        (graph.inputNodes.map fun node => (node.id, node.args)) =
          [(⟨0⟩, []), (⟨1⟩, [.ref ⟨0⟩])]) = true := by decide +kernel
  obtain ⟨graph, success, holds⟩ := exists_trace_of_within (by decide) found
  obtain ⟨size, inputs⟩ := of_decide_eq_true holds
  obtain ⟨-, -, -, ⟨body, hasBody, copied, valid⟩, -⟩ := traced_graphs_are_closed success
  obtain rfl := Option.some.inj hasBody
  obtain ⟨first, others, -, afterFirst, isInputs⟩ := List.forall₂_cons_left_iff.mp copied
  obtain ⟨second, none, isCopy, afterSecond, rfl⟩ :=
    List.forall₂_cons_left_iff.mp (afterFirst : List.Forall₂ _ [derivedInput] _)
  obtain rfl := List.forall₂_nil_left_iff.mp afterSecond
  rw [isInputs] at inputs
  refine ⟨graph, success, size, valid rfl, first, second, isInputs, isCopy, ?_⟩
  simp only [List.map_cons, List.map_nil, List.cons.injEq, Prod.mk.injEq, and_true] at inputs
  rw [inputs.2.2, inputs.1.1]

end OpGraph
