import OpGraph.Overrides
import OpGraph.Proofs.Replacement
import OpGraph.Proofs.TracedGraphs

/-!
# What an expansion does

A trace has all that it takes to be copied: its nodes read earlier ones, and its last node is the
only output.  So copying a trace can fail for want of arguments only, and it does fail if the call
has fewer arguments than the trace has inputs (`Expansion.outcome_copyNodes`).

The copies are the nodes of the trace under one substitution, which binds the inputs to the
arguments and every other node to its copy (`Expansion.Copies.inlined`).  They come to stand side by
side at the insertion point in the order of the trace (`Graph.nodes_emitAll`), with one exception:
an insertion point that has not been created yet is the copy that gets its identity, and the later
copies are placed before that one.
-/

namespace OpGraph

/-! ### Where nodes come to stand -/

namespace Graph

variable {graph : Graph} {news : List (Instruction × Option String)}

/-- New nodes go between `before` and `after`: ahead of the insertion point if it is in the graph,
and to the end otherwise. -/
structure Divides (graph : Graph) (before after : List Node) : Prop where
  nodes_eq : graph.nodes = before ++ after
  point : after.head?.map Node.id = graph.insertionPoint.filter graph.contains

/-- New nodes in the order in which they come to stand.  One that is the insertion point itself has
those that are created later before it. -/
def settled (point : Option NodeId) (added : List Node) : List Node :=
  (added.filter fun node => point ≠ some node.id) ++ added.filter fun node => point = some node.id

theorem settled_eq_self {point : Option NodeId} {added : List Node}
    (other : ∀ node ∈ added, point ≠ some node.id) : settled point added = added := by
  rw [settled, List.filter_eq_self.mpr (by simpa using other),
    List.filter_eq_nil_iff.mpr (by simpa using other), List.append_nil]

theorem settled_cons_of_ne {point : Option NodeId} {node : Node} (other : point ≠ some node.id)
    (added : List Node) : settled point (node :: added) = node :: settled point added := by
  rw [settled, List.filter_cons_of_pos (by simpa using other),
    List.filter_cons_of_neg (by simpa using other), List.cons_append]
  rfl

theorem settled_cons_of_eq {point : Option NodeId} {node : Node} {added : List Node}
    (same : point = some node.id) (other : ∀ node ∈ added, point ≠ some node.id) :
    settled point (node :: added) = added ++ [node] := by
  rw [settled, List.filter_cons_of_neg (by simpa using same),
    List.filter_cons_of_pos (by simpa using same), List.filter_eq_self.mpr (by simpa using other),
    List.filter_eq_nil_iff.mpr (by simpa using other)]

theorem created_le_of_mem_newNodes {node : Node} (member : node ∈ graph.newNodes news) :
    graph.created ≤ node.id.index := by
  have isNew : node.id.index ∈ List.range' graph.created news.length := by
    rw [← map_id_newNodes]
    exact List.mem_map_of_mem member
  exact (List.mem_range'_1.mp isNew).1

/-- An insertion point that has been created is none of the new nodes. -/
theorem point_ne_of_created {point : Option NodeId}
    (created : ∀ anchor ∈ point, anchor.index < graph.created) :
    ∀ node ∈ graph.newNodes news, point ≠ some node.id := by
  rintro node member rfl
  exact absurd (created node.id rfl) (Nat.not_lt.mpr (created_le_of_mem_newNodes member))

theorem Gap.divides {before after : List Node} (gap : graph.Gap before after) :
    graph.Divides before after := by
  refine ⟨gap.nodes_eq, ?_⟩
  cases gap with
  | atEnd _ point => rw [point]; rfl
  | @ahead node after split point =>
      have found : graph.contains node.id = true := by
        rw [contains_eq_true_iff, ids, split]
        simp
      rw [point, Option.filter_some, if_pos found]
      rfl

theorem placeBefore_of_absent {anchor : NodeId} {new : Node} {nodes : List Node}
    (absent : anchor ∉ nodes.map Node.id) : placeBefore anchor new nodes = nodes ++ [new] := by
  induction nodes with
  | nil => rfl
  | cons node rest ih =>
      simp only [List.map_cons, List.mem_cons, not_or] at absent
      rw [placeBefore, if_neg (Ne.symm absent.1), ih absent.2, List.cons_append]

/-- While the insertion point is not in the graph, a new node goes to the end. -/
theorem nodes_emit_of_absent {anchor : NodeId} (point : graph.insertionPoint = some anchor)
    (absent : anchor ∉ graph.ids) (instruction : Instruction) (hint : Option String) :
    (graph.emit instruction hint).nodes = graph.nodes ++ [graph.newNode instruction hint] := by
  show graph.place (graph.newNode instruction hint) = _
  rw [place, point]
  exact placeBefore_of_absent absent

/-- Nodes emitted while the insertion point is not in the graph go to the end, until one of them is
the insertion point. -/
theorem nodes_emitAll_of_absent {anchor : NodeId} (wellFormed : graph.WellFormed)
    (point : graph.insertionPoint = some anchor) (absent : anchor ∉ graph.ids) :
    (graph.emitAll news).nodes = graph.nodes ++ settled (some anchor) (graph.newNodes news) := by
  induction news generalizing graph with
  | nil => exact (List.append_nil _).symm
  | cons first rest ih =>
      obtain ⟨instruction, hint⟩ := first
      have wellEmitted := wellFormed.emit instruction hint
      have nodes := nodes_emit_of_absent point absent instruction hint
      rw [newNodes]
      by_cases same : anchor = graph.nextId
      -- The new node is the insertion point from now on, so that there is a gap before it.
      · have gap : (graph.emit instruction hint).Gap graph.nodes
            [graph.newNode instruction hint] := .ahead nodes (point.trans (congrArg some same))
        have later : ∀ node ∈ (graph.emit instruction hint).newNodes rest,
            some anchor ≠ some node.id := by
          refine point_ne_of_created fun other isAnchor => ?_
          rw [← Option.some.inj isAnchor, same]
          exact Nat.lt_succ_self graph.created
        rw [settled_cons_of_eq (congrArg some same) later, ← List.append_assoc]
        exact (gap.emitAll wellEmitted rest).nodes_eq
      · have stillAbsent : anchor ∉ (graph.emit instruction hint).ids := by
          rw [ids, nodes, List.map_append, List.mem_append, not_or]
          exact ⟨absent, fun isNew => same (List.mem_singleton.mp isNew)⟩
        have other : some anchor ≠ some (graph.newNode instruction hint).id := fun equal =>
          same (Option.some.inj equal)
        have placed := ih wellEmitted point stillAbsent
        rw [nodes, List.append_assoc] at placed
        rw [settled_cons_of_ne other]
        exact placed

theorem exists_gap (present : ∀ anchor ∈ graph.insertionPoint, anchor ∈ graph.ids) :
    ∃ before after, graph.Gap before after := by
  cases point : graph.insertionPoint with
  | none => exact ⟨graph.nodes, [], .atEnd rfl point⟩
  | some anchor =>
      obtain ⟨node, member, rfl⟩ := List.mem_map.mp (present anchor point)
      obtain ⟨before, after, split⟩ := List.append_of_mem member
      exact ⟨before, node :: after, .ahead split point⟩

/-- Nodes emitted in turn stand side by side at the insertion point. -/
theorem nodes_emitAll (wellFormed : graph.WellFormed)
    (news : List (Instruction × Option String)) :
    ∃ before after, graph.Divides before after ∧
      (graph.emitAll news).nodes =
        before ++ settled graph.insertionPoint (graph.newNodes news) ++ after := by
  by_cases present : ∀ anchor ∈ graph.insertionPoint, anchor ∈ graph.ids
  · obtain ⟨before, after, gap⟩ := exists_gap present
    have created := fun anchor isPoint => wellFormed.counted anchor (present anchor isPoint)
    refine ⟨before, after, gap.divides, ?_⟩
    rw [settled_eq_self (point_ne_of_created created)]
    exact (gap.emitAll wellFormed news).nodes_eq
  · push Not at present
    obtain ⟨anchor, point, absent⟩ := present
    have unknown : graph.contains anchor = false := by
      rwa [← Bool.not_eq_true, contains_eq_true_iff]
    refine ⟨graph.nodes, [], ⟨(List.append_nil _).symm, ?_⟩, ?_⟩
    · rw [point, Option.filter_some, unknown]
      rfl
    · rw [List.append_nil, point]
      exact nodes_emitAll_of_absent wellFormed point absent

end Graph

/-! ### Copies under a substitution -/

/-- The operation with attribute paths put under a scope. -/
def Op.under (scope : String) : Op → Op
  | getAttr path => getAttr (scope ++ path)
  | op => op

/-- The substitution takes a node to another one, which has its instruction with the arguments
substituted and attribute paths put under a scope. -/
structure Node.InlinedAs (scope : String) (image : NodeId → Arg) (node copy : Node) : Prop where
  image_eq : image node.id = .ref copy.id
  op_eq : copy.op = node.op.under scope
  args_eq : copy.args = node.args.map (Argument.bind image)
  kwargs_eq : copy.kwargs = node.kwargs.bind image
  info_eq : copy.info = node.info

namespace Graph

/-- The nodes that are neither inputs nor outputs. -/
def innerOf (nodes : List Node) : List Node :=
  nodes.filter fun node => node.op ≠ .placeholder ∧ node.op ≠ .output

/-- Attribute reads have no arguments. -/
def BareReads (nodes : List Node) : Prop :=
  ∀ node ∈ nodes, ∀ path, node.op = .getAttr path → node.args = [] ∧ node.kwargs = ∅

/-- The inputs stand before all other nodes. -/
def InputsFirst (nodes : List Node) : Prop :=
  ∃ inputs others, nodes = inputs ++ others ∧
    (∀ node ∈ inputs, node.op = .placeholder) ∧ ∀ node ∈ others, node.op ≠ .placeholder

theorem innerOf_cons_of_isInput {node : Node} (isInput : node.op = .placeholder)
    (rest : List Node) : innerOf (node :: rest) = innerOf rest :=
  List.filter_cons_of_neg (by simp [isInput])

theorem innerOf_cons_of_isInner {node : Node} (isInner : node.op.IsInner) (rest : List Node) :
    innerOf (node :: rest) = node :: innerOf rest :=
  List.filter_cons_of_pos (decide_eq_true isInner)

theorem innerOf_concat_output {output : Node} (isOutput : output.op = .output)
    (nodes : List Node) : innerOf (nodes ++ [output]) = innerOf nodes := by
  have none : innerOf [output] = [] := List.filter_cons_of_neg (by simp [isOutput])
  rw [innerOf, List.filter_append]
  exact (congrArg (innerOf nodes ++ ·) none).trans (List.append_nil _)

end Graph

namespace Env

/-- The substitution takes every node with a value to that value. -/
def Agrees (env : Env) (image : NodeId → Arg) : Prop :=
  ∀ (id : NodeId) (value : Arg), env[id]? = some value → image id = value

theorem agrees_total (env : Env) : env.Agrees (Argument.total env.value) :=
  fun _ _ found => Argument.total_of_eq_ok (value_eq_ok_iff.mpr found)

theorem Agrees.image_eq {env : Env} {image : NodeId → Arg} {id : NodeId} {value : Arg}
    (agrees : Agrees (env.insert id value) image) : image id = value :=
  agrees id value Std.ExtTreeMap.getElem?_insert_self

theorem Agrees.of_insert {env : Env} {image : NodeId → Arg} {id : NodeId} {value : Arg}
    (agrees : Agrees (env.insert id value) image) (absent : env[id]? = none) :
    env.Agrees image := by
  intro other bound found
  refine agrees other bound ?_
  rwa [getElem?_insert_of_ne]
  rintro rfl
  rw [absent] at found
  cases found

/-- Looking up the references of an argument substitutes for them. -/
theorem Agrees.bind_argument {env : Env} {image : NodeId → Arg} {argument value : Arg}
    (agrees : env.Agrees image) (found : argument.traverse env.value = .ok value) :
    argument.bind image = value := by
  obtain ⟨bound, rfl⟩ := Argument.traverse_eq_ok_iff.mp found
  refine Argument.bind_congr fun target isRef => ?_
  obtain ⟨value, isBound⟩ := bound target isRef
  rw [Argument.total_of_eq_ok isBound, agrees target value (value_eq_ok_iff.mp isBound)]

/-- Looking up the references of an instruction substitutes for them. -/
theorem Agrees.bind_instruction {env : Env} {image : NodeId → Arg}
    {instruction result : Instruction} (agrees : env.Agrees image)
    (found : instruction.traverse env.value = .ok result) : instruction.bind image = result := by
  obtain ⟨bound, rfl⟩ := Instruction.traverse_eq_ok_iff.mp found
  refine Instruction.bind_congr fun target isInput => ?_
  obtain ⟨value, isBound⟩ := bound target isInput
  rw [Argument.total_of_eq_ok isBound, agrees target value (value_eq_ok_iff.mp isBound)]

/-- A value is added for the first of several nodes without one. -/
theorem absent_insert {env : Env} {node : Node} {rest : List Node}
    (distinct : ((node :: rest).map Node.id).Nodup)
    (absent : ∀ other ∈ node :: rest, env[other.id]? = none) (value : Arg) :
    ∀ other ∈ rest, (env.insert node.id value)[other.id]? = none := by
  intro other member
  rw [getElem?_insert_of_ne]
  · exact absent other (List.mem_cons_of_mem _ member)
  · intro same
    exact (List.nodup_cons.mp distinct).1 (same ▸ List.mem_map_of_mem member)

end Env

theorem Kwargs.bind_empty {ρ σ : Type} (image : ρ → Argument σ) :
    Kwargs.bind image (∅ : Kwargs ρ) = ∅ := by
  refine Std.ExtTreeMap.ext_getElem? fun keyword => ?_
  rw [getElem?_bind, Std.ExtTreeMap.getElem?_empty, Std.ExtTreeMap.getElem?_empty]
  rfl

/-- A relocated node is inlined by any substitution that agrees with the environment. -/
theorem Node.Relocated.inlinedAs {scope : String} {env : Env} {node : Node}
    {instruction : Instruction} {image : NodeId → Arg} {graph : Graph} {hint : Option String}
    (relocated : node.Relocated scope env instruction) (agrees : env.Agrees image)
    (bare : ∀ path, node.op = .getAttr path → node.args = [] ∧ node.kwargs = ∅)
    (isCopy : image node.id = .ref graph.nextId) :
    node.InlinedAs scope image (graph.newNode instruction hint) := by
  cases relocated with
  | @read path isAttribute =>
      obtain ⟨noArgs, noKwargs⟩ := bare path isAttribute
      refine ⟨isCopy, ?_, ?_, ?_, rfl⟩
      · rw [isAttribute]
        rfl
      · rw [noArgs]
        rfl
      · rw [noKwargs]
        exact (Kwargs.bind_empty image).symm
  | call isCall found =>
      obtain rfl := agrees.bind_instruction found
      refine ⟨isCopy, ?_, Argument.bindAll_eq_map image node.args, rfl, rfl⟩
      cases isOp : node.op with
      | placeholder | getAttr | output =>
          rw [isOp] at isCall
          cases isCall
      | callFunction | callMethod | callModule => exact isOp

theorem Op.isModuleCall_under (scope : String) (op : Op) :
    (op.under scope).isModuleCall = op.isModuleCall := by
  cases op <;> rfl

/-- Inlined nodes call a submodule only if their sources do. -/
theorem Node.noModuleCall_of_inlinedAs {scope : String} {image : NodeId → Arg}
    {sources copies : List Node} (inlined : List.Forall₂ (InlinedAs scope image) sources copies)
    (noCall : ∀ node ∈ sources, node.op.isModuleCall = false) :
    ∀ copy ∈ copies, copy.op.isModuleCall = false := by
  induction inlined with
  | nil => exact noCall
  | cons first _ ih =>
      obtain ⟨here, later⟩ := List.forall_mem_cons.mp noCall
      refine List.forall_mem_cons.mpr ⟨?_, ih later⟩
      rw [first.op_eq, Op.isModuleCall_under, here]

namespace Expansion

variable {scope : String} {inner added : List Node} {output : Node} {result value : Arg}
variable {others args : List Arg} {env : Env} {graph final : Graph}

/-- The copies of nodes under a substitution that takes the inputs to the arguments. -/
structure Inlined (scope : String) (nodes : List Node) (args : List Arg) (image : NodeId → Arg)
    (added : List Node) : Prop where
  inputs : (Graph.inputsOf nodes).map (fun node => image node.id) =
    args.take (Graph.inputsOf nodes).length
  copies : List.Forall₂ (Node.InlinedAs scope image) (Graph.innerOf nodes) added

/-- Copying nodes up to an output substitutes for their references. -/
theorem Copies.inlined (isOutput : output.op = .output) (results : output.args = result :: others)
    (copies : Copies scope (inner ++ [output]) args env graph added final value)
    (notOutput : ∀ node ∈ inner, node.op ≠ .output) (distinct : (inner.map Node.id).Nodup)
    (absent : ∀ node ∈ inner, env[node.id]? = none) (bare : Graph.BareReads inner) :
    ∃ image, env.Agrees image ∧ Inlined scope inner args image added ∧
      result.bind image = value := by
  induction inner generalizing args env graph added with
  | nil =>
      cases copies with
      | input isInput => exact absurd isOutput (Op.ne_output_of_isInput isInput)
      | output _ found read =>
          -- The environment at the output extends all the earlier ones, so the substitution is
          -- read off it.
          obtain rfl := (List.cons.inj (results.symm.trans found)).1
          refine ⟨_, env.agrees_total, ⟨rfl, .nil⟩, env.agrees_total.bind_argument read⟩
      | inner relocated => exact absurd isOutput relocated.notOutput
  | cons node rest ih =>
      have later (argument : Arg) := Env.absent_insert distinct absent argument
      have missing := absent node List.mem_cons_self
      have bareRest : Graph.BareReads rest := fun other member =>
        bare other (List.mem_cons_of_mem _ member)
      obtain ⟨here, notOutputRest⟩ := List.forall_mem_cons.mp notOutput
      cases copies with
      | @input _ _ _ argument _ _ _ _ _ isInput copies =>
          obtain ⟨image, agrees, inlined, isValue⟩ :=
            ih copies notOutputRest distinct.of_cons (later argument) bareRest
          refine ⟨image, agrees.of_insert missing, ⟨?_, ?_⟩, isValue⟩
          · rw [Graph.inputsOf_cons_of_isInput isInput, List.map_cons, List.length_cons,
              List.take_succ_cons, inlined.inputs, agrees.image_eq]
          · rw [Graph.innerOf_cons_of_isInput isInput]
            exact inlined.copies
      | output isOutputHere => exact absurd isOutputHere here
      | inner relocated copies =>
          obtain ⟨image, agrees, inlined, isValue⟩ :=
            ih copies notOutputRest distinct.of_cons (later _) bareRest
          have isInner := relocated.isInner_source
          refine ⟨image, agrees.of_insert missing, ⟨?_, ?_⟩, isValue⟩
          · rw [Graph.inputsOf_cons_of_isInner isInner]
            exact inlined.inputs
          · rw [Graph.innerOf_cons_of_isInner isInner]
            exact .cons (relocated.inlinedAs (agrees.of_insert missing)
              (bare node List.mem_cons_self) agrees.image_eq) inlined.copies

/-- The copies are nodes emitted in turn. -/
theorem Copies.emitAll {nodes : List Node}
    (copies : Copies scope nodes args env graph added final value) :
    ∃ news, final = graph.emitAll news ∧ added = graph.newNodes news := by
  induction copies with
  | input _ _ ih => exact ih
  | output => exact ⟨[], rfl, rfl⟩
  | @inner _ _ _ instruction _ _ _ _ _ _ _ ih =>
      obtain ⟨news, rfl, rfl⟩ := ih
      exact ⟨(instruction, none) :: news, rfl, rfl⟩

/-! ### Copying succeeds if there are arguments enough -/

/-- What has a value keeps having one when a value is added. -/
theorem bound_insert (env : Env) (id : NodeId) (value : Arg) :
    insert id {other | Argument.Bound env.value other} ⊆
      {other | Argument.Bound (Env.value (env.insert id value)) other} := by
  rintro other (rfl | ⟨bound, found⟩)
  · exact ⟨value, Env.value_eq_ok_iff.mpr Std.ExtTreeMap.getElem?_insert_self⟩
  · by_cases same : other = id
    · subst same
      exact ⟨value, Env.value_eq_ok_iff.mpr Std.ExtTreeMap.getElem?_insert_self⟩
    · refine ⟨bound, Env.value_eq_ok_iff.mpr ?_⟩
      rw [Env.getElem?_insert_of_ne same]
      exact Env.value_eq_ok_iff.mp found

/-- An inner node can be relocated if everything that it reads has a value. -/
theorem exists_relocated {node : Node} (isInner : node.op.IsInner)
    (bound : ∀ input ∈ node.inputs, Argument.Bound env.value input) (scope : String) :
    ∃ instruction, node.Relocated scope env instruction := by
  have read := Instruction.traverse_eq_ok_iff.mpr ⟨bound, rfl⟩
  cases isOp : node.op with
  | placeholder => exact absurd isOp isInner.1
  | output => exact absurd isOp isInner.2
  | getAttr path => exact ⟨_, .read isOp⟩
  | callFunction | callMethod | callModule => exact ⟨_, .call (by rw [isOp]; rfl) read⟩

/-- Copying a relocated node, up to the journal. -/
theorem copyNodes_of_relocated {site : Site} {node : Node} {rest : List Node}
    {instruction : Instruction} (relocated : node.Relocated site.scope env instruction) :
    (copyNodes site (node :: rest) args env graph).1 =
        (copyNodes site rest args (env.insert node.id (.ref graph.nextId))
          (graph.emit instruction none)).1 ∧
      (copyNodes site (node :: rest) args env graph).2.outcome =
        (copyNodes site rest args (env.insert node.id (.ref graph.nextId))
          (graph.emit instruction none)).2.outcome := by
  cases relocated with
  | read isAttribute => simp only [copyNodes, isAttribute, and_self]
  | call isCall found =>
      cases isOp : node.op with
      | placeholder | getAttr | output =>
          rw [isOp] at isCall
          cases isCall
      | callFunction | callMethod | callModule =>
          simp only [copyNodes, isOp, found, and_self]

/-- Nodes that read earlier ones, up to an output with a result, can be copied if there is an
argument for every input, and otherwise there are too few arguments. -/
theorem outcome_copyNodes (site : Site) (isOutput : output.op = .output)
    (results : output.args = result :: others)
    (closed : Graph.Closed {id | Argument.Bound env.value id} (inner ++ [output]))
    (notOutput : ∀ node ∈ inner, node.op ≠ .output) :
    ((Graph.inputsOf inner).length ≤ args.length →
      ∃ value, (copyNodes site (inner ++ [output]) args env graph).2.outcome = .ok value) ∧
    (args.length < (Graph.inputsOf inner).length →
      (copyNodes site (inner ++ [output]) args env graph).2.outcome =
        .error (.arityMismatch site.className site.expected site.supplied)) := by
  induction inner generalizing args env graph with
  | nil =>
      refine ⟨fun _ => ?_, fun few => absurd few (Nat.not_lt_zero _)⟩
      have bound : ∀ id ∈ result.refs, Argument.Bound env.value id := fun id isRef =>
        closed.1 id (Instruction.mem_inputs.mpr
          (Or.inl (by simp [results, Argument.refsAll, isRef])))
      refine ⟨result.bind (Argument.total env.value), ?_⟩
      simp only [List.nil_append, copyNodes, isOutput, results, Report.outcome_ofExcept]
      exact Argument.traverse_eq_ok_iff.mpr ⟨bound, rfl⟩
  | cons node rest ih =>
      obtain ⟨here, notOutputRest⟩ := List.forall_mem_cons.mp notOutput
      rcases node.op.cases_isInner with isInput | isOutputHere | isInner
      · rw [Graph.inputsOf_cons_of_isInput isInput]
        cases args with
        | nil =>
            refine ⟨fun enough => absurd enough (Nat.not_succ_le_zero _), fun _ => ?_⟩
            simp only [List.cons_append, copyNodes, isInput]
            rfl
        | cons argument later =>
            have closedRest := Graph.closed_mono (bound_insert env node.id argument) closed.2
            simp only [List.cons_append, copyNodes, isInput, List.length_cons,
              Nat.add_le_add_iff_right, Nat.add_lt_add_iff_right]
            exact ih closedRest notOutputRest
      · exact absurd isOutputHere here
      · obtain ⟨instruction, relocated⟩ := exists_relocated isInner closed.1 site.scope
        have closedRest := Graph.closed_mono (bound_insert env node.id (.ref graph.nextId)) closed.2
        rw [Graph.inputsOf_cons_of_isInner isInner, List.cons_append,
          (copyNodes_of_relocated relocated).2]
        exact ih closedRest notOutputRest

/-- If the inputs stand first and there are too few arguments, nothing is copied. -/
theorem copyNodes_of_few {site : Site} {inputs rest : List Node}
    (isInput : ∀ node ∈ inputs, node.op = .placeholder) (few : args.length < inputs.length) :
    (copyNodes site (inputs ++ rest) args env graph).1 = graph := by
  induction inputs generalizing args env with
  | nil => exact absurd few (Nat.not_lt_zero _)
  | cons node later ih =>
      obtain ⟨here, isInputLater⟩ := List.forall_mem_cons.mp isInput
      cases args with
      | nil => simp only [List.cons_append, copyNodes, here]
      | cons argument others =>
          simp only [List.cons_append, copyNodes, here]
          exact ih isInputLater (Nat.lt_of_succ_lt_succ few)

end Expansion

/-! ### Traces can be copied -/

namespace Graph

variable {node : Node} {nodes rest : List Node}

theorem inputsFirst_of_noInput (noInput : ∀ node ∈ nodes, node.op ≠ .placeholder) :
    InputsFirst nodes :=
  ⟨[], nodes, rfl, fun _ member => absurd member List.not_mem_nil, noInput⟩

theorem InputsFirst.cons (first : InputsFirst nodes) (isInput : node.op = .placeholder) :
    InputsFirst (node :: nodes) := by
  obtain ⟨inputs, others, rfl, isInputs, noInput⟩ := first
  exact ⟨node :: inputs, others, rfl, List.forall_mem_cons.mpr ⟨isInput, isInputs⟩, noInput⟩

theorem InputsFirst.tail (first : InputsFirst (node :: rest)) : InputsFirst rest := by
  obtain ⟨inputs, others, split, isInput, noInput⟩ := first
  cases inputs with
  | nil =>
      obtain rfl := split
      exact inputsFirst_of_noInput (List.forall_mem_cons.mp noInput).2
  | cons input later =>
      obtain ⟨rfl, rfl⟩ := List.cons.inj split
      exact ⟨later, others, rfl, (List.forall_mem_cons.mp isInput).2, noInput⟩

/-- Behind a node that is no input there are no inputs. -/
theorem InputsFirst.noInput (first : InputsFirst (node :: rest))
    (notInput : node.op ≠ .placeholder) : ∀ other ∈ rest, other.op ≠ .placeholder := by
  obtain ⟨inputs, others, split, isInput, noInput⟩ := first
  cases inputs with
  | nil =>
      obtain rfl := split
      exact (List.forall_mem_cons.mp noInput).2
  | cons input later =>
      obtain ⟨rfl, -⟩ := List.cons.inj split
      exact absurd (isInput node List.mem_cons_self) notInput

end Graph

theorem Node.Relocated.bare {scope path : String} {env : Env} {node : Node}
    {instruction : Instruction} (relocated : node.Relocated scope env instruction)
    (isAttribute : instruction.op = .getAttr path) :
    instruction.args = [] ∧ instruction.kwargs = ∅ := by
  cases relocated with
  | read => exact ⟨rfl, rfl⟩
  | call isCall found =>
      rw [← Instruction.op_traverse found, isAttribute] at isCall
      cases isCall

namespace Tracing.Records

variable {leaf : LeafPolicy} {owner : Submodule} {scope : String} {nodes added : List Node}
variable {inputs : Option CallInputs} {env : Env} {graph final : Graph} {value : Arg}

/-- Attribute reads are recorded without arguments. -/
theorem bareReads (records : Records leaf owner scope nodes inputs env graph added final value) :
    Graph.BareReads added := by
  induction records with
  | input isInput _ read _ ih =>
      refine List.forall_mem_cons.mpr ⟨fun path isAttribute => ?_, ih⟩
      cases isAttribute.symm.trans ((Instruction.op_traverse read).trans isInput)
  | argument _ _ _ _ ih => exact ih
  | inner _ relocated _ ih =>
      exact List.forall_mem_cons.mpr ⟨fun _ isAttribute => relocated.bare isAttribute, ih⟩
  | kept _ _ _ _ _ ih =>
      exact List.forall_mem_cons.mpr ⟨fun _ impossible => (nomatch impossible), ih⟩
  | entered _ _ _ _ _ _ _ ihInside ihLater => exact List.forall_mem_append.mpr ⟨ihInside, ihLater⟩
  | output => exact fun _ member => absurd member List.not_mem_nil

/-- A body without inputs records none. -/
theorem noInput (records : Records leaf owner scope nodes none env graph added final value)
    (none : ∀ node ∈ nodes, node.op ≠ .placeholder) : ∀ node ∈ added, node.op ≠ .placeholder := by
  have before : ∀ node ∈ Graph.beforeOutput nodes, node.op ≠ .placeholder := fun node member =>
    none node (List.takeWhile_sublist _ |>.subset member)
  have copied := records.copies {} .refl
  rw [Graph.inputsOf_eq_nil before, List.forall₂_nil_left_iff] at copied
  intro node member isInput
  have listed : node ∈ Graph.inputsOf added := List.mem_filter.mpr ⟨member, by simpa using isInput⟩
  rw [copied] at listed
  exact absurd listed List.not_mem_nil

/-- If the inputs of the outermost body stand first, they are recorded first. -/
theorem inputsFirst (records : Records leaf owner scope nodes none env graph added final value)
    (first : Graph.InputsFirst nodes) : Graph.InputsFirst added := by
  induction nodes generalizing env graph added with
  | nil => cases records
  | cons node rest ih =>
      by_cases isInput : node.op = .placeholder
      · cases records with
        | input _ _ read later =>
            exact (ih later first.tail).cons ((Instruction.op_traverse read).trans isInput)
        | inner _ relocated => exact absurd isInput relocated.isInner_source.1
        | kept isCall | entered isCall => cases isInput.symm.trans isCall
        | output isOutput => cases isInput.symm.trans isOutput
      · refine Graph.inputsFirst_of_noInput (records.noInput ?_)
        exact List.forall_mem_cons.mpr ⟨isInput, first.noInput isInput⟩

end Tracing.Records

namespace Expansion

/-- The graph consists of the nodes `inner` and an output with the argument `result`, and it has all
that it takes to be copied into another graph. -/
structure Copyable (body : Graph) (inner : List Node) (result : Arg) : Prop where
  ends : ∃ output : Node, body.nodes = inner ++ [output] ∧ output.op = .output ∧
    output.args = [result]
  notOutput : ∀ node ∈ inner, node.op ≠ .output
  noModuleCall : ∀ node ∈ inner, node.op.isModuleCall = false
  distinct : (inner.map Node.id).Nodup
  closed : Graph.Closed ∅ body.nodes
  bare : Graph.BareReads inner

theorem Copyable.length_placeholders {body : Graph} {inner : List Node} {result : Arg}
    (copyable : Copyable body inner result) :
    body.placeholders.length = (Graph.inputsOf inner).length := by
  obtain ⟨output, nodes, isOutput, -⟩ := copyable.ends
  rw [Graph.placeholders, List.length_map, nodes]
  show (Graph.inputsOf (inner ++ [output])).length = _
  rw [Graph.inputsOf_concat_output isOutput]

theorem exists_copyable {submodule : Submodule} {body : Graph}
    (traced : (trace flattenAll submodule).outcome = .ok body) :
    ∃ inner result, Copyable body inner result ∧
      ∀ source, submodule.body = some source → Graph.InputsFirst source.nodes →
        Graph.InputsFirst inner := by
  obtain ⟨source, inner, final, result, hasBody, records, wellFormed, nodes⟩ :=
    Tracing.exists_records traced
  have noModuleCall : ∀ node ∈ body.nodes, node.op.isModuleCall = false := by
    simpa using List.countP_eq_zero.mp (moduleCalls_trace traced)
  have distinct := wellFormed.distinct
  rw [Graph.ids, nodes, List.map_append] at distinct
  rw [nodes] at noModuleCall
  refine ⟨inner, result, ⟨⟨_, nodes, rfl, rfl⟩, records.notOutput,
    (List.forall_mem_append.mp noModuleCall).1, distinct.of_append_left, nodes ▸ records.closed,
    records.bareReads⟩, ?_⟩
  · intro other hasOther first
    obtain rfl := Option.some.inj (hasBody.symm.trans hasOther)
    exact records.inputsFirst first

/-! ### The outcome -/

theorem outcome_enclose {α : Type} (className : String) (report : Report α) :
    (enclose className report).outcome = report.outcome.mapError (.expansion className) := by
  unfold enclose
  split
  · next success => rw [success]; rfl
  · next failure => rw [failure]; rfl

section

variable {submodule : Submodule} {scope : String} {graph body : Graph} {args : List Arg}

/-- The input check is overridden for the time of the expansion. -/
theorem expand_of_free (free : submodule.overridden = false) (kwargs : Kwargs NodeId) :
    expand scope graph submodule args kwargs =
      let (changed, report) := splice scope graph { submodule with overridden := true } args kwargs
      ⟨changed, submodule, enclose submodule.className report⟩ := by
  rw [expand, Submodule.holdCheck_of_free free]
  dsimp only
  rw [Submodule.releaseCheck_held free]

/-- An expansion fails as the trace does. -/
theorem expand_of_trace_error {cause : Failure} (free : submodule.overridden = false)
    (failed : (trace flattenAll { submodule with overridden := true }).outcome = .error cause) :
    (expand scope graph submodule args ∅).graph = graph ∧
      (expand scope graph submodule args ∅).report.outcome =
        .error (.expansion submodule.className cause) := by
  have noKwargs : (∅ : Kwargs NodeId).isEmpty = true := rfl
  simp only [expand_of_free free, splice, noKwargs, if_true, failed, outcome_enclose, true_and]
  rfl

/-- A trace that succeeds is copied. -/
theorem expand_of_trace_ok (free : submodule.overridden = false)
    (traced : (trace flattenAll { submodule with overridden := true }).outcome = .ok body) :
    let copied := copyNodes ⟨submodule.className, scope, body.placeholders.length, args.length⟩
      body.nodes args ∅ graph
    (expand scope graph submodule args ∅).graph = copied.1 ∧
      (expand scope graph submodule args ∅).report.outcome =
        copied.2.outcome.mapError (.expansion submodule.className) := by
  have noKwargs : (∅ : Kwargs NodeId).isEmpty = true := rfl
  simp only [expand_of_free free, splice, noKwargs, if_true, traced, outcome_enclose, and_self]

/-- A trace is copied if there is an argument for every input of it, and otherwise there are too few
arguments. -/
theorem outcome_expand (free : submodule.overridden = false)
    (traced : (trace flattenAll { submodule with overridden := true }).outcome = .ok body) :
    (body.placeholders.length ≤ args.length →
      ∃ value, (expand scope graph submodule args ∅).report.outcome = .ok value) ∧
    (args.length < body.placeholders.length →
      (expand scope graph submodule args ∅).report.outcome =
        .error (.expansion submodule.className
          (.arityMismatch submodule.className body.placeholders.length args.length))) := by
  obtain ⟨inner, result, copyable, -⟩ := exists_copyable traced
  obtain ⟨output, nodes, isOutput, results⟩ := copyable.ends
  have closed : Graph.Closed {id | Argument.Bound (Env.value ∅) id} (inner ++ [output]) :=
    nodes ▸ Graph.closed_mono (Set.empty_subset _) copyable.closed
  obtain ⟨succeeds, fails⟩ := @outcome_copyNodes inner output result [] args ∅ graph
    ⟨submodule.className, scope, body.placeholders.length, args.length⟩ isOutput results closed
    copyable.notOutput
  rw [(expand_of_trace_ok free traced).2, nodes]
  rw [← copyable.length_placeholders] at succeeds fails
  refine ⟨fun enough => ?_, fun few => ?_⟩
  · obtain ⟨value, success⟩ := succeeds enough
    exact ⟨value, by rw [success]; rfl⟩
  · rw [fails few]
    rfl

/-- If the inputs of the body stand first, an expansion that fails has copied nothing. -/
theorem graph_expand_of_error {cause : Failure} (free : submodule.overridden = false)
    (first : ∀ source, submodule.body = some source → Graph.InputsFirst source.nodes)
    (failed : (expand scope graph submodule args ∅).report.outcome = .error cause) :
    (expand scope graph submodule args ∅).graph = graph := by
  cases traced : (trace flattenAll { submodule with overridden := true }).outcome with
  | error _ => exact (expand_of_trace_error free traced).1
  | ok body =>
      obtain ⟨inner, result, copyable, recordedFirst⟩ := exists_copyable traced
      have few : args.length < body.placeholders.length := by
        by_contra enough
        obtain ⟨value, success⟩ := (outcome_expand free traced).1 (Nat.not_lt.mp enough)
        cases failed.symm.trans success
      obtain ⟨source, hasBody⟩ := exists_body_of_trace traced
      obtain ⟨inputs, others, rfl, isInput, noInput⟩ :=
        recordedFirst source hasBody (first source hasBody)
      obtain ⟨output, nodes, -⟩ := copyable.ends
      rw [copyable.length_placeholders, Graph.inputsOf_append, Graph.inputsOf_eq_self isInput,
        Graph.inputsOf_eq_nil noInput, List.append_nil] at few
      rw [(expand_of_trace_ok free traced).1, nodes, List.append_assoc]
      exact copyNodes_of_few isInput few

/-- What an expansion that succeeds makes of a graph: the inner nodes of the trace are put at the
insertion point. -/
structure Effect (scope : String) (graph body : Graph) (args : List Arg) (expanded : Graph)
    (value : Arg) (before added after : List Node) (image : NodeId → Arg) : Prop where
  /-- The insertion point is between `before` and `after`. -/
  divides : graph.Divides before after
  /-- The nodes of the graph are unchanged, and the new ones are side by side. -/
  nodes_eq : expanded.nodes = before ++ Graph.settled graph.insertionPoint added ++ after
  /-- The new nodes are in order, unless the insertion point is still to be created. -/
  settled_eq : (∀ anchor ∈ graph.insertionPoint, anchor.index < graph.created) →
    Graph.settled graph.insertionPoint added = added
  /-- The new nodes have new identities. -/
  ids_eq : added.map (fun node => node.id.index) = List.range' graph.created added.length
  /-- They are the inner nodes of the trace, with the arguments for its inputs. -/
  inlined : Inlined scope body.nodes args image added
  /-- None of them calls a submodule. -/
  noModuleCall : ∀ node ∈ added, node.op.isModuleCall = false
  /-- The value of the call is that of the output of the trace. -/
  value_eq : ∃ inner output result, body.nodes = inner ++ [output] ∧ output.op = .output ∧
    output.args = [result] ∧ value = result.bind image

theorem exists_effect {value : Arg} (wellFormed : graph.WellFormed)
    (traced : (trace flattenAll { submodule with overridden := true }).outcome = .ok body)
    (success : (expand scope graph submodule args ∅).report.outcome = .ok value) :
    ∃ before added after image, Effect scope graph body args
      (expand scope graph submodule args ∅).graph value before added after image := by
  obtain ⟨other, added, tracedOther, -, copies⟩ := copies_of_expand success
  obtain rfl := Except.ok.inj (traced.symm.trans tracedOther)
  obtain ⟨inner, result, copyable, -⟩ := exists_copyable traced
  obtain ⟨output, nodes, isOutput, results⟩ := copyable.ends
  obtain ⟨news, expanded, rfl⟩ := copies.emitAll
  rw [nodes] at copies
  obtain ⟨image, -, inlined, isValue⟩ := copies.inlined isOutput results copyable.notOutput
    copyable.distinct (fun _ _ => Std.ExtTreeMap.getElem?_empty) copyable.bare
  obtain ⟨before, after, divides, placed⟩ := Graph.nodes_emitAll wellFormed news
  have noneInner : ∀ node ∈ Graph.innerOf inner, node.op.isModuleCall = false := fun node member =>
    copyable.noModuleCall node (List.mem_of_mem_filter member)
  refine ⟨before, _, after, image, divides, expanded ▸ placed, fun created =>
    Graph.settled_eq_self (Graph.point_ne_of_created created), ?_, ⟨?_, ?_⟩,
    Node.noModuleCall_of_inlinedAs inlined.copies noneInner,
    inner, output, result, nodes, isOutput, results, isValue.symm⟩
  · rw [Graph.map_id_newNodes, ← List.length_map Node.toInstruction,
      Graph.map_toInstruction_newNodes, List.length_map]
  · rw [nodes, Graph.inputsOf_concat_output isOutput]
    exact inlined.inputs
  · rw [nodes, Graph.innerOf_concat_output isOutput]
    exact inlined.copies

end

end Expansion

/-- A call without keyword arguments can be expanded exactly if its submodule can be traced, the
check of its inputs left aside, and there is an argument for every input of the trace; with too few
arguments this is what fails.  The expansion puts the inner nodes of the trace at the insertion
point, the arguments in the place of its inputs.  If the inputs of the body stand first, a failure
leaves the graph as it was. -/
theorem expansion_follows_trace {submodule : Submodule} (free : submodule.overridden = false)
    {graph : Graph} (wellFormed : graph.WellFormed) (scope : String) (args : List Arg) :
    let traced := (trace flattenAll { submodule with overridden := true }).outcome
    let expansion := expand scope graph submodule args ∅
    ((∃ value, expansion.report.outcome = .ok value) ↔
      ∃ body, traced = .ok body ∧ body.placeholders.length ≤ args.length) ∧
    (∀ cause, traced = .error cause →
      expansion.report.outcome = .error (.expansion submodule.className cause)) ∧
    (∀ body cause, traced = .ok body → expansion.report.outcome = .error cause →
      cause = .expansion submodule.className
        (.arityMismatch submodule.className body.placeholders.length args.length)) ∧
    (∀ body value, traced = .ok body → expansion.report.outcome = .ok value →
      ∃ before added after image, Expansion.Effect scope graph body args expansion.graph value
        before added after image) ∧
    ((∀ body, submodule.body = some body → Graph.InputsFirst body.nodes) →
      ∀ cause, expansion.report.outcome = .error cause → expansion.graph = graph) := by
  intro traced expansion
  refine ⟨⟨?_, ?_⟩, fun cause failed => (Expansion.expand_of_trace_error free failed).2,
    fun body cause isTraced failed => ?_, fun body value isTraced success =>
    Expansion.exists_effect wellFormed isTraced success,
    fun first cause failed => Expansion.graph_expand_of_error free first failed⟩
  · rintro ⟨value, success⟩
    obtain ⟨body, -, isTraced, -⟩ := Expansion.copies_of_expand success
    refine ⟨body, isTraced, Nat.not_lt.mp fun few => ?_⟩
    cases success.symm.trans ((Expansion.outcome_expand free isTraced).2 few)
  · rintro ⟨body, isTraced, enough⟩
    exact (Expansion.outcome_expand free isTraced).1 enough
  · rcases Nat.lt_or_ge args.length body.placeholders.length with few | enough
    · exact Except.error.inj (failed.symm.trans ((Expansion.outcome_expand free isTraced).2 few))
    · obtain ⟨value, success⟩ := (Expansion.outcome_expand free isTraced).1 enough
      cases failed.symm.trans success

/-- A body that calls a child and reads an attribute, with a check that rejects every input. -/
def blendModule : Submodule where
  className := "Blend"
  body := some
    { nodes :=
        [{ op := .placeholder, id := ⟨0⟩, name := "left" },
          { op := .placeholder, id := ⟨1⟩, name := "right" },
          { op := .callModule "shift", args := [.ref ⟨0⟩], id := ⟨2⟩, name := "shift" },
          { op := .getAttr "weight", id := ⟨3⟩, name := "weight" },
          { op := .callMethod "lerp", args := [.ref ⟨2⟩, .tuple [.ref ⟨1⟩, .ref ⟨3⟩]], id := ⟨4⟩,
            name := "lerp" },
          { op := .output, args := [.tuple [.ref ⟨4⟩, .ref ⟨0⟩]], id := ⟨5⟩, name := "output" }]
      created := 6 }
  children :=
    [("shift",
      { className := "Shift"
        body := some
          { nodes :=
              [{ op := .placeholder, id := ⟨0⟩, name := "x" },
                { op := .getAttr "bias", id := ⟨1⟩, name := "bias" },
                { op := .callFunction ⟨"torch.add"⟩, args := [.ref ⟨0⟩, .ref ⟨1⟩], id := ⟨2⟩,
                  name := "add" },
                { op := .output, args := [.ref ⟨2⟩], id := ⟨3⟩, name := "output" }]
            created := 4 } })]
  check := some fun _ => false

/-- A graph with a call of the submodule, which is the insertion point. -/
def blendCaller : Graph where
  nodes :=
    [{ op := .placeholder, id := ⟨0⟩, name := "x" },
      { op := .callModule "blend", args := [.ref ⟨0⟩, .literal (.int 2)], id := ⟨1⟩,
        name := "blend" },
      { op := .output, args := [.ref ⟨1⟩], id := ⟨2⟩, name := "output" }]
  created := 3
  insertionPoint := some ⟨1⟩

theorem blendModule_expansion_follows_trace :
    (∃ value, (expand "blend." blendCaller blendModule
        [.ref ⟨0⟩, .literal (.int 2)] ∅).report.outcome = .ok value) ∧
      (expand "blend." blendCaller blendModule [.ref ⟨0⟩] ∅).report.outcome =
        .error (.expansion "Blend" (.arityMismatch "Blend" 2 1)) ∧
      (expand "blend." blendCaller blendModule [.ref ⟨0⟩] ∅).graph = blendCaller := by
  have free : blendModule.overridden = false := rfl
  have wellFormed : blendCaller.WellFormed := ⟨by decide, by decide⟩
  have found : (traceWithin flattenAll 100 { blendModule with overridden := true }).any
      (fun report => report.outcome.toOption.any (·.placeholders.length = 2)) = true := by
    decide +kernel
  obtain ⟨body, traced, two⟩ := exists_trace_of_within (by decide) found
  have two := of_decide_eq_true two
  obtain ⟨enough, -⟩ := expansion_follows_trace free wellFormed "blend."
    [.ref ⟨0⟩, .literal (.int 2)]
  obtain ⟨few, -, fails, -, unchanged⟩ := expansion_follows_trace free wellFormed "blend."
    [.ref ⟨0⟩]
  refine ⟨enough.mpr ⟨body, traced, Nat.le_of_eq two⟩, ?_⟩
  cases outcome : (expand "blend." blendCaller blendModule [.ref ⟨0⟩] ∅).report.outcome with
  | ok value =>
      obtain ⟨other, tracedOther, enough⟩ := few.mp ⟨value, outcome⟩
      obtain rfl := Except.ok.inj (traced.symm.trans tracedOther)
      rw [two] at enough
      exact absurd enough (by decide)
  | error cause =>
      refine ⟨?_, unchanged ?_ cause outcome⟩
      · rw [fails body cause traced outcome, two]
        rfl
      · rintro source ⟨⟩
        exact ⟨_, _, (List.take_append_drop 2 _).symm, by decide, by decide⟩

/-- A body with two calls, of which the second reads the first. -/
def chainedModule : Submodule where
  className := "Chain"
  body := some
    { nodes :=
        [{ op := .placeholder, id := ⟨0⟩, name := "x" },
          { op := .callFunction ⟨"torch.exp"⟩, args := [.ref ⟨0⟩], id := ⟨1⟩, name := "exp" },
          { op := .callFunction ⟨"torch.sin"⟩, args := [.ref ⟨1⟩], id := ⟨2⟩, name := "sin" },
          { op := .output, args := [.ref ⟨2⟩], id := ⟨3⟩, name := "output" }]
      created := 4 }

/-- A graph whose insertion point is the next node to be created. -/
def pointedAhead : Graph where
  nodes := [{ op := .placeholder, id := ⟨0⟩, name := "x" }]
  created := 1
  insertionPoint := some ⟨1⟩

/-- The copies do not stand in order: the second one is placed before the first, which has become
the insertion point. -/
theorem chainedModule_out_of_order :
    chainedModule.overridden = false ∧ pointedAhead.WellFormed ∧
      ∃ body value,
        (trace flattenAll { chainedModule with overridden := true }).outcome = .ok body ∧
        (expand "m." pointedAhead chainedModule [.ref ⟨0⟩] ∅).report.outcome = .ok value ∧
          ¬∃ before added after, pointedAhead.nodes = before ++ after ∧
            (expand "m." pointedAhead chainedModule [.ref ⟨0⟩] ∅).graph.nodes =
              before ++ added ++ after ∧
            added.map (fun node => node.op) =
              (Graph.innerOf body.nodes).map fun node => node.op.under "m." := by
  have free : chainedModule.overridden = false := rfl
  have found : (traceWithin flattenAll 100 { chainedModule with overridden := true }).any
      (fun report => report.outcome.toOption.any fun body => body.nodes =
        [{ op := .placeholder, id := ⟨0⟩, name := "x" },
          { op := .callFunction ⟨"torch.exp"⟩, args := [.ref ⟨0⟩], id := ⟨1⟩, name := "exp" },
          { op := .callFunction ⟨"torch.sin"⟩, args := [.ref ⟨1⟩], id := ⟨2⟩, name := "sin" },
          { op := .output, args := [.ref ⟨2⟩], id := ⟨3⟩, name := "output" }]) = true := by
    decide +kernel
  obtain ⟨body, traced, isBody⟩ := exists_trace_of_within (by decide) found
  have nodes := of_decide_eq_true isBody
  obtain ⟨copied, outcome⟩ := @Expansion.expand_of_trace_ok chainedModule "m." pointedAhead body
    [.ref ⟨0⟩] free traced
  rw [nodes] at copied outcome
  have ops : (expand "m." pointedAhead chainedModule [.ref ⟨0⟩] ∅).graph.nodes.map
      (fun node => node.op) =
        [.placeholder, .callFunction ⟨"torch.sin"⟩, .callFunction ⟨"torch.exp"⟩] := by
    rw [copied]
    rfl
  refine ⟨free, ⟨by decide, by decide⟩, body, _, traced, outcome, ?_⟩
  rintro ⟨before, added, after, -, expanded, inOrder⟩
  rw [expanded, List.map_append, List.map_append, inOrder, nodes] at ops
  have infixed : [Op.callFunction ⟨"torch.exp"⟩, .callFunction ⟨"torch.sin"⟩] <:+:
      [.placeholder, .callFunction ⟨"torch.sin"⟩, .callFunction ⟨"torch.exp"⟩] := ⟨_, _, ops⟩
  exact absurd infixed (by decide)

end OpGraph
