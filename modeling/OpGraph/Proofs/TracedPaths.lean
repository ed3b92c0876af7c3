import OpGraph.Proofs.NormalForm
import OpGraph.Proofs.Paths
import OpGraph.Proofs.TracedGraphs

/-!
# Paths in traced and normalized graphs

A trace enters bodies under scopes (`Tracing.Enters`).  What a body calls a path, the root calls by
the scope and the path, and both lead to the same submodule (`Tracing.Enters.descendant?_eq`).  So
the paths of a trace can be followed from the root.

Normalization puts the path of an expanded call before the attribute paths of its trace.  The paths
that are to be expected of a graph (`Graph.expectedPaths`) are the same before and after every
visit, and those of a graph in normal form are the ones that it reads.
-/

namespace OpGraph

namespace Submodule

/-- The body has a node with the operation before its first output. -/
def Performs (submodule : Submodule) (op : Op) : Prop :=
  ∃ body, submodule.body = some body ∧ ∃ node ∈ Graph.beforeOutput body.nodes, node.op = op

end Submodule

namespace Tracing

/-- The submodules whose bodies a trace enters, each with what is put before its paths. -/
inductive Enters (leaf : LeafPolicy) (root : Submodule) : Submodule → String → Prop where
  /-- The outermost body. -/
  | root : Enters leaf root root ""
  /-- The body of a child that is called and no leaf. -/
  | child {owner child : Submodule} {scope target : String} (entered : Enters leaf root owner scope)
      (calls : owner.Performs (.callModule target)) (found : owner.descendant? target = some child)
      (noLeaf : leaf child (scope ++ target) = false) :
      Enters leaf root child (scope ++ target ++ ".")

/-- The operation that is recorded for an operation of a body. -/
inductive Qualifies (leaf : LeafPolicy) (owner : Submodule) (scope : String) : Op → Op → Prop where
  /-- The path of an attribute is put under the scope. -/
  | read (path : String) :
      Qualifies leaf owner scope (.getAttr path) (.getAttr (scope ++ path))
  /-- So is the path of a leaf. -/
  | call {target : String} {child : Submodule} (found : owner.descendant? target = some child)
      (isLeaf : leaf child (scope ++ target) = true) :
      Qualifies leaf owner scope (.callModule target) (.callModule (scope ++ target))
  /-- Other operations have no path. -/
  | other {op : Op} (noCall : op.isModuleCall = false) (noRead : ∀ path, op ≠ .getAttr path) :
      Qualifies leaf owner scope op op

/-- An operation is recorded for an operation of a body that the trace enters. -/
structure Origin (leaf : LeafPolicy) (root : Submodule) (op : Op) (owner : Submodule)
    (scope : String) (source : Op) : Prop where
  entered : Enters leaf root owner scope
  performs : owner.Performs source
  qualifies : Qualifies leaf owner scope source op

theorem qualifies_of_isInput {leaf : LeafPolicy} {owner : Submodule} {scope : String} {node : Node}
    {env : Env} {instruction : Instruction} (isInput : node.op = .placeholder)
    (read : node.toInstruction.traverse env.value = .ok instruction) :
    Qualifies leaf owner scope node.op instruction.op := by
  rw [Instruction.op_traverse read, isInput]
  exact .other rfl fun _ => Op.noConfusion

theorem qualifies_of_relocated {leaf : LeafPolicy} {owner : Submodule} {scope : String}
    {node : Node} {env : Env} {instruction : Instruction} (noCall : node.op.isModuleCall = false)
    (relocated : node.Relocated scope env instruction) :
    Qualifies leaf owner scope node.op instruction.op := by
  cases relocated with
  | read isAttribute =>
      rw [isAttribute]
      exact .read _
  | call isCall found =>
      rw [Instruction.op_traverse found]
      refine .other noCall fun path isAttribute => ?_
      rw [isAttribute] at isCall
      cases isCall

namespace Enters

variable {leaf : LeafPolicy} {root owner : Submodule} {scope : String}

/-- A path in a body leads where the root is led by the scope and the path. -/
theorem descendant?_eq (entered : Enters leaf root owner scope) (path : String) :
    root.descendant? (scope ++ path) = owner.descendant? path := by
  induction entered generalizing path with
  | root => rw [String.empty_append]
  | child _ _ found _ ih =>
      rw [Submodule.descendant?_joined, ih, found]
      rfl

/-- A scope is empty or a path that leads to the submodule, with a dot behind it. -/
theorem scope_cases (entered : Enters leaf root owner scope) :
    owner = root ∧ scope = "" ∨
      ∃ path, scope = path ++ "." ∧ root.descendant? path = some owner := by
  cases entered with
  | root => exact Or.inl ⟨rfl, rfl⟩
  | child entered _ found _ => exact Or.inr ⟨_, rfl, (entered.descendant?_eq _).trans found⟩

end Enters

namespace Records

variable {leaf : LeafPolicy} {root owner : Submodule} {scope : String} {nodes added : List Node}
variable {inputs : Option CallInputs} {env : Env} {graph final : Graph} {value : Arg} {body : Graph}

/-- Every recorded node is made from a node of a body that the trace enters. -/
theorem exists_origin (records : Records leaf owner scope nodes inputs env graph added final value)
    (entered : Enters leaf root owner scope) (hasBody : owner.body = some body)
    (part : ∀ node ∈ Graph.beforeOutput nodes, node ∈ Graph.beforeOutput body.nodes) :
    ∀ new ∈ added, ∃ owner scope source, Origin leaf root new.op owner scope source := by
  induction records generalizing body with
  | @input owner scope node _ _ _ _ _ _ _ isInput _ read _ ih =>
      rw [Graph.beforeOutput_cons (Op.ne_output_of_isInput isInput)] at part
      obtain ⟨here, rest⟩ := List.forall_mem_cons.mp part
      have qualifies : Qualifies leaf owner scope node.op _ := qualifies_of_isInput isInput read
      exact List.forall_mem_cons.mpr ⟨⟨owner, scope, node.op, entered,
        ⟨body, hasBody, node, here, rfl⟩, qualifies⟩, ih entered hasBody rest⟩
  | argument isInput _ _ _ ih =>
      rw [Graph.beforeOutput_cons (Op.ne_output_of_isInput isInput)] at part
      exact ih entered hasBody (List.forall_mem_cons.mp part).2
  | @inner owner scope node _ _ _ _ _ _ _ _ notCall relocated _ ih =>
      rw [Graph.beforeOutput_cons relocated.notOutput] at part
      obtain ⟨here, rest⟩ := List.forall_mem_cons.mp part
      exact List.forall_mem_cons.mpr ⟨⟨owner, scope, node.op, entered,
        ⟨body, hasBody, node, here, rfl⟩, qualifies_of_relocated notCall relocated⟩,
        ih entered hasBody rest⟩
  | @kept owner _ scope target node _ _ _ _ _ _ _ _ isCall found isLeaf _ _ ih =>
      rw [Graph.beforeOutput_cons (isCall ▸ (Op.isInner_callModule target).2)] at part
      obtain ⟨here, rest⟩ := List.forall_mem_cons.mp part
      exact List.forall_mem_cons.mpr ⟨⟨owner, scope, .callModule target, entered,
        ⟨body, hasBody, node, here, isCall⟩, .call found isLeaf⟩, ih entered hasBody rest⟩
  | @entered _ _ _ target _ node _ _ _ _ _ _ _ _ _ _ _ isCall found noLeaf _ hasInside _ _
      ihInside ihLater =>
      rw [Graph.beforeOutput_cons (isCall ▸ (Op.isInner_callModule target).2)] at part
      obtain ⟨here, rest⟩ := List.forall_mem_cons.mp part
      have inside := entered.child ⟨body, hasBody, node, here, isCall⟩ found noLeaf
      exact List.forall_mem_append.mpr
        ⟨ihInside inside hasInside fun _ member => member, ihLater entered hasBody rest⟩
  | output => exact fun _ member => absurd member List.not_mem_nil

end Records

theorem exists_origin_of_trace {leaf : LeafPolicy} {root : Submodule} {graph : Graph}
    (success : (trace leaf root).outcome = .ok graph) {node : Node} (member : node ∈ graph.nodes)
    (notOutput : node.op ≠ .output) :
    ∃ owner scope source, Origin leaf root node.op owner scope source := by
  obtain ⟨body, added, final, value, hasBody, records, -, nodes⟩ := exists_records success
  rw [nodes] at member
  rcases List.mem_append.mp member with recorded | isLast
  · exact records.exists_origin .root hasBody (fun _ inside => inside) node recorded
  · obtain rfl := List.mem_singleton.mp isLast
    exact absurd rfl notOutput

/-- The submodule calls of a trace lead from the root to the leaves. -/
theorem call_of_trace {leaf : LeafPolicy} {root : Submodule} {graph : Graph}
    (success : (trace leaf root).outcome = .ok graph) {node : Node} (member : node ∈ graph.nodes)
    {path : String} (isCall : node.op = .callModule path) :
    ∃ owner scope target child, Enters leaf root owner scope ∧
      owner.Performs (.callModule target) ∧ path = scope ++ target ∧
      owner.descendant? target = some child ∧ leaf child path = true ∧
      root.descendant? path = some child := by
  obtain ⟨owner, scope, source, entered, performs, qualifies⟩ :=
    exists_origin_of_trace success member (by rw [isCall]; exact Op.noConfusion)
  rw [isCall] at qualifies
  cases qualifies with
  | @call target child found isLeaf =>
      exact ⟨owner, scope, target, child, entered, performs, rfl, found, isLeaf,
        (entered.descendant?_eq target).trans found⟩
  | other noCall => cases noCall

/-- The attribute paths of a trace are those of the root, or lead from the root to the submodule
that reads the attribute. -/
theorem read_of_trace {leaf : LeafPolicy} {root : Submodule} {graph : Graph}
    (success : (trace leaf root).outcome = .ok graph) {node : Node} (member : node ∈ graph.nodes)
    {path : String} (isRead : node.op = .getAttr path) :
    root.Performs (.getAttr path) ∨
      ∃ ownerPath owner name, Enters leaf root owner (ownerPath ++ ".") ∧
        root.descendant? ownerPath = some owner ∧ owner.Performs (.getAttr name) ∧
        path = ownerPath ++ "." ++ name := by
  obtain ⟨owner, scope, source, entered, performs, qualifies⟩ :=
    exists_origin_of_trace success member (by rw [isRead]; exact Op.noConfusion)
  rw [isRead] at qualifies
  cases qualifies with
  | read name =>
      rcases entered.scope_cases with ⟨rfl, rfl⟩ | ⟨ownerPath, rfl, leads⟩
      · rw [String.empty_append]
        exact Or.inl performs
      · exact Or.inr ⟨ownerPath, owner, name, entered, leads, performs, rfl⟩
  | other _ noRead => exact absurd rfl (noRead path)

end Tracing

/-! ### Attribute paths after normalization -/

/-- The path of the attribute that an operation reads. -/
def Op.attributePath? : Op → Option String
  | .getAttr path => some path
  | _ => none

/-- The paths of the attributes that some nodes read. -/
def Graph.attributePaths (nodes : List Node) : List String :=
  nodes.filterMap fun node => node.op.attributePath?

/-- The attribute paths that normalization is expected to leave in the place of an operation. -/
def Op.expectedPaths (rules : Rules) (submodules : Forest) : Op → Except Failure (List String)
  | .getAttr path => return [path]
  | .callModule path => do
    let submodule ← submodules.get path
    if rules.opaqueClasses.contains submodule.className then
      return []
    else
      let traced ← (trace flattenAll { submodule with overridden := true }).outcome
      return (Graph.attributePaths traced.nodes).map (path ++ "." ++ ·)
  | _ => return []

namespace Graph

/-- The attribute paths that normalization is expected to leave in the place of some nodes. -/
def expectedPaths (rules : Rules) (submodules : Forest) :
    List Node → Except Failure (List String)
  | [] => return []
  | node :: rest => do
    let first ← node.op.expectedPaths rules submodules
    let later ← expectedPaths rules submodules rest
    return first ++ later

theorem attributePaths_cons (node : Node) (rest : List Node) :
    attributePaths (node :: rest) = node.op.attributePath?.toList ++ attributePaths rest := by
  rw [attributePaths, List.filterMap_cons]
  cases node.op.attributePath? <;> rfl

theorem attributePaths_append (left right : List Node) :
    attributePaths (left ++ right) = attributePaths left ++ attributePaths right :=
  List.filterMap_append

variable {rules : Rules} {submodules : Forest}

theorem expectedPaths_append (left right : List Node) :
    expectedPaths rules submodules (left ++ right) = do
      let first ← expectedPaths rules submodules left
      let later ← expectedPaths rules submodules right
      return first ++ later := by
  induction left with
  | nil =>
      cases found : expectedPaths rules submodules right <;> simp [expectedPaths, found]
  | cons node rest ih =>
      simp only [List.cons_append, expectedPaths, ih, bind_assoc, pure_bind, List.append_assoc]

/-- Redirecting readers changes no path. -/
theorem expectedPaths_map_redirect (old : NodeId) (new : Arg) (nodes : List Node) :
    expectedPaths rules submodules (nodes.map (Node.redirect old new)) =
      expectedPaths rules submodules nodes := by
  induction nodes with
  | nil => rfl
  | cons node rest ih => rw [List.map_cons, expectedPaths, expectedPaths, ih, Node.op_redirect]

/-- Of operations that are expected to leave what they read, nodes leave what they read. -/
theorem expectedPaths_eq_ok {nodes : List Node}
    (each : ∀ node ∈ nodes,
      node.op.expectedPaths rules submodules = .ok node.op.attributePath?.toList) :
    expectedPaths rules submodules nodes = .ok (attributePaths nodes) := by
  induction nodes with
  | nil => rfl
  | cons node rest ih =>
      obtain ⟨first, later⟩ := List.forall_mem_cons.mp each
      rw [expectedPaths, first, ih later, attributePaths_cons]
      rfl

end Graph

theorem Op.expectedPaths_of_noCall {rules : Rules} {submodules : Forest} {op : Op}
    (noCall : op.isModuleCall = false) :
    op.expectedPaths rules submodules = .ok op.attributePath?.toList := by
  cases op with
  | callModule path => cases noCall
  | placeholder | getAttr | callFunction | callMethod | output => rfl

theorem Op.IsNormal.expectedPaths_eq {rules : Rules} {submodules : Forest} {op : Op}
    (normal : op.IsNormal rules submodules) :
    op.expectedPaths rules submodules = .ok op.attributePath?.toList := by
  cases op with
  | callModule path =>
      obtain ⟨submodule, found, isOpaque⟩ := normal
      simp only [Op.expectedPaths, Forest.get, found]
      show (if rules.opaqueClasses.contains submodule.className = true then _ else _) = _
      rw [if_pos isOpaque]
      rfl
  | placeholder | getAttr | callFunction | callMethod | output => rfl

theorem Node.Relocated.attributePath?_eq {scope : String} {env : Env} {node : Node}
    {instruction : Instruction} (relocated : node.Relocated scope env instruction) :
    instruction.op.attributePath? = node.op.attributePath?.map (scope ++ ·) := by
  cases relocated with
  | read isAttribute => rw [isAttribute]; rfl
  | call isCall found =>
      rw [Instruction.op_traverse found]
      cases isOp : node.op with
      | getAttr path => rw [isOp] at isCall; cases isCall
      | placeholder | callFunction | callMethod | callModule | output => rfl

namespace Expansion.Copies

variable {scope : String} {nodes added : List Node} {args : List Arg} {env : Env}
variable {graph final : Graph} {value : Arg}

/-- The attribute paths of the copied nodes are put under the scope. -/
theorem attributePaths_eq (copies : Copies scope nodes args env graph added final value) :
    Graph.attributePaths added =
      (Graph.attributePaths (Graph.beforeOutput nodes)).map (scope ++ ·) := by
  induction copies with
  | input isInput _ ih =>
      rw [Graph.beforeOutput_cons (Op.ne_output_of_isInput isInput), Graph.attributePaths_cons,
        isInput]
      exact ih
  | @output node rest _ _ _ _ _ _ isOutput =>
      have none : Graph.beforeOutput (node :: rest) = [] :=
        List.takeWhile_cons_of_neg (by simpa using isOutput)
      rw [none]
      rfl
  | @inner node rest added instruction _ _ _ graph _ relocated _ ih =>
      have sameOp : (graph.newNode instruction none).op = instruction.op := rfl
      rw [Graph.beforeOutput_cons relocated.notOutput, Graph.attributePaths_cons,
        Graph.attributePaths_cons, ih, sameOp, relocated.attributePath?_eq, List.map_append]
      cases node.op.attributePath? <;> rfl

/-- Copying nodes that call no submodule makes no submodule calls. -/
theorem noCall (copies : Copies scope nodes args env graph added final value)
    (noCalls : ∀ node ∈ nodes, node.op.isModuleCall = false) :
    ∀ new ∈ added, new.op.isModuleCall = false := by
  induction copies with
  | input _ _ ih => exact ih (List.forall_mem_cons.mp noCalls).2
  | output => exact fun _ member => absurd member List.not_mem_nil
  | inner relocated _ ih =>
      obtain ⟨here, later⟩ := List.forall_mem_cons.mp noCalls
      refine List.forall_mem_cons.mpr ⟨?_, ih later⟩
      cases relocated with
      | read => rfl
      | call _ found => exact (congrArg Op.isModuleCall (Instruction.op_traverse found)).trans here

end Expansion.Copies

namespace Scan

variable {rules : Rules} {submodules : Forest} {scan next : Scan} {node : Node}

/-- What takes the place of a node is expected to leave the same paths. -/
theorem Exchange.expectedPaths_eq {graph final : Graph} {added : List Node} {value : Arg}
    (exchange : Exchange rules submodules graph node added final value) :
    Graph.expectedPaths rules submodules added = node.op.expectedPaths rules submodules := by
  cases exchange with
  | renamed standsFor =>
      rw [Graph.expectedPaths_eq_ok
        (List.forall_mem_singleton.mpr (Op.expectedPaths_of_noCall rfl))]
      generalize node.op = op at standsFor
      cases standsFor with
      | method | function => rfl
  | @expansion path submodule body final added value isCall found expandable traced _ copies =>
      have noCalls := List.countP_eq_zero.mp (moduleCalls_trace traced)
      have each := copies.noCall fun other member => by simpa using noCalls other member
      obtain ⟨_, recorded, _, _, -, records, -, nodes⟩ := Tracing.exists_records traced
      have untilOutput : Graph.attributePaths (Graph.beforeOutput body.nodes) =
          Graph.attributePaths body.nodes := by
        rw [nodes, Graph.beforeOutput_concat records.notOutput rfl, Graph.attributePaths_append]
        exact (List.append_nil _).symm
      rw [Graph.expectedPaths_eq_ok fun new member => Op.expectedPaths_of_noCall (each new member),
        copies.attributePaths_eq, untilOutput, isCall]
      simp only [Op.expectedPaths, Forest.get, found]
      show _ = (if rules.opaqueClasses.contains submodule.className = true then _ else _)
      rw [expandable, traced]
      rfl

/-- A visit changes none of the paths that are to be expected. -/
theorem Settled.expectedPaths_visit (settled : scan.Settled rules submodules)
    (found : scan.graph.nodes[scan.cursor]? = some node)
    (visit : Visit rules submodules scan node next) :
    Graph.expectedPaths rules submodules next.graph.nodes =
      Graph.expectedPaths rules submodules scan.graph.nodes := by
  cases visit with
  | passed => rfl
  | @exchanged added final value count exchange =>
      obtain ⟨before, after, split, -⟩ := Graph.exists_split_of_getElem? found
      obtain ⟨wellFormed, gap⟩ := exchange.gap settled.wellFormed split
      have alone : Graph.expectedPaths rules submodules (node :: after) =
          Graph.expectedPaths rules submodules (added ++ after) := by
        rw [Graph.expectedPaths, Graph.expectedPaths_append, exchange.expectedPaths_eq]
      show Graph.expectedPaths rules submodules (dismiss scan.graph final node value).nodes = _
      rw [nodes_dismiss_map wellFormed gap, Graph.expectedPaths_map_redirect, split,
        List.append_assoc, Graph.expectedPaths_append before, Graph.expectedPaths_append before,
        alone]

end Scan

/-- The attribute paths of a normalized graph are those that were to be expected. -/
theorem attributePaths_normalize {rules : Rules} {program : Program} {graph : Graph}
    (wellFormed : program.graph.WellFormed)
    (success : (normalize rules program).outcome = .ok graph) :
    Graph.expectedPaths rules program.submodules program.graph.nodes =
      .ok (Graph.attributePaths graph.nodes) := by
  obtain ⟨-, normal⟩ := settled_normalize wellFormed success
  rw [outcome_normalize] at success
  obtain ⟨last, ⟨-, same⟩, rfl, -⟩ :=
    Scan.run_induction (motive := fun scan => scan.Settled rules program.submodules ∧
        Graph.expectedPaths rules program.submodules scan.graph.nodes =
          Graph.expectedPaths rules program.submodules program.graph.nodes)
      (fun _ _ _ kept found visit => ⟨kept.1.visit found visit,
        (kept.1.expectedPaths_visit found visit).trans kept.2⟩)
      ⟨Scan.settled_start wellFormed, rfl⟩ success
  rw [← same, Graph.expectedPaths_eq_ok fun node member => (normal node member).expectedPaths_eq]

/-! ### Overridden checks -/

namespace Tracing

/-- Overriding the input check of a submodule changes nothing in a trace that succeeds: the
induction is on the nodes of the body, and the checks of the children stay in force. -/
theorem outcome_walk_overridden {leaf : LeafPolicy} {owner : Submodule} {body : Graph}
    {scope : String} {nodes : List Node} {inputs : Option CallInputs} {env : Env} {graph : Graph}
    {returned : Graph × Arg}
    (success : (walk leaf owner body scope nodes inputs env graph).outcome = .ok returned) :
    (walk leaf { owner with overridden := true } body scope nodes inputs env graph).outcome =
      .ok returned := by
  induction nodes generalizing inputs env graph with
  | nil =>
      rw [walk] at success
      cases success
  | cons node rest ih =>
      have accepted : ({ owner with overridden := true } : Submodule).accepts node = true := rfl
      rw [walk.eq_def] at success ⊢
      simp only [Report.outcome_bind, Report.outcome_note] at success ⊢
      obtain ⟨-, -, success⟩ := Outcome.bind_eq_ok.mp success
      refine Outcome.bind_eq_ok.mpr ⟨(), rfl, ?_⟩
      cases isOp : node.op with
      | placeholder =>
          simp only [isOp, accepted, if_true] at success ⊢
          split at success
          · split at success
            · simp only [Report.outcome_bind, Report.outcome_ofExcept] at success ⊢
              obtain ⟨instruction, read, later⟩ := Outcome.bind_eq_ok.mp success
              exact Outcome.bind_eq_ok.mpr ⟨instruction, read, ih later⟩
            · exact ih success
            · split at success
              · exact ih success
              · cases success
          · cases success
      | getAttr path =>
          simp only [isOp] at success ⊢
          exact ih success
      | callFunction _ | callMethod _ =>
          simp only [isOp, Report.outcome_bind, Report.outcome_ofExcept] at success ⊢
          obtain ⟨instruction, read, later⟩ := Outcome.bind_eq_ok.mp success
          exact Outcome.bind_eq_ok.mpr ⟨instruction, read, ih later⟩
      | callModule target =>
          simp only [isOp] at success ⊢
          split at success
          · cases success
          · next child found =>
            split
            · next unknown => cases found.symm.trans unknown
            · next other foundOther =>
              obtain rfl := Option.some.inj (found.symm.trans foundOther)
              simp only [Report.outcome_bind, Report.outcome_ofExcept] at success ⊢
              obtain ⟨call, read, success⟩ := Outcome.bind_eq_ok.mp success
              refine Outcome.bind_eq_ok.mpr ⟨call, read, ?_⟩
              split at success
              · next isLeaf =>
                rw [if_pos isLeaf]
                exact ih success
              · next noLeaf =>
                rw [if_neg noLeaf]
                split at success
                · cases success
                · simp only [Report.outcome_bind] at success ⊢
                  obtain ⟨inside, within, later⟩ := Outcome.bind_eq_ok.mp success
                  exact Outcome.bind_eq_ok.mpr ⟨inside, within, ih later⟩
      | output =>
          simp only [isOp] at success ⊢
          exact success

end Tracing

theorem outcome_trace_overridden {leaf : LeafPolicy} {submodule : Submodule} {graph : Graph}
    (success : (trace leaf submodule).outcome = .ok graph) :
    (trace leaf { submodule with overridden := true }).outcome = .ok graph := by
  simp only [trace, Report.outcome_bind, Report.outcome_ofExcept] at success ⊢
  obtain ⟨frame, entering, completed⟩ := Outcome.bind_eq_ok.mp success
  obtain ⟨body, hasBody, rfl⟩ := Tracing.Frame.enter_eq_ok entering
  refine Outcome.bind_eq_ok.mpr
    ⟨⟨{ submodule with overridden := true }, body, body.nodes, "", ∅, none⟩, ?_, ?_⟩
  · rw [Tracing.Frame.enter, hasBody]
  · rw [Tracing.Machine.agrees leaf, Report.outcome_bind] at completed ⊢
    obtain ⟨returned, walked, same⟩ := Outcome.bind_eq_ok.mp completed
    exact Outcome.bind_eq_ok.mpr ⟨returned, Tracing.outcome_walk_overridden walked, same⟩

/-- A path leads on from where the path before it led, whether it is followed name by name or cut at
its first dot.  So the submodule calls of a trace lead from the root to the leaves, its attribute
paths to the submodules that read them, and normalization leaves the attribute paths of the traces
that it expands, each under the path of its call. -/
theorem paths_are_coherent :
    (∀ (root : Submodule) (path rest : String),
      root.descendant? path = root.descend (Dotted.segments path) ∧
      root.descendant? (path ++ "." ++ rest) =
        (root.descendant? path).bind (Submodule.descendant? · rest) ∧
      root.descendant? path = Forest.findByCut root.children path ∧
      Forest.get root.children path =
        (root.descendant? path).elim (.error (.unknownSubmodule path)) .ok) ∧
    (∀ (leaf : LeafPolicy) (root : Submodule) (graph : Graph),
      (trace leaf root).outcome = .ok graph → ∀ node ∈ graph.nodes, ∀ path,
        (node.op = .callModule path →
          ∃ owner scope target child, Tracing.Enters leaf root owner scope ∧
            owner.Performs (.callModule target) ∧ path = scope ++ target ∧
            owner.descendant? target = some child ∧ leaf child path = true ∧
            root.descendant? path = some child) ∧
        (node.op = .getAttr path →
          root.Performs (.getAttr path) ∨
            ∃ ownerPath owner name, Tracing.Enters leaf root owner (ownerPath ++ ".") ∧
              root.descendant? ownerPath = some owner ∧ owner.Performs (.getAttr name) ∧
              path = ownerPath ++ "." ++ name)) ∧
    (∀ (rules : Rules) (program : Program) (graph : Graph), program.graph.WellFormed →
      (normalize rules program).outcome = .ok graph →
        Graph.expectedPaths rules program.submodules program.graph.nodes =
          .ok (Graph.attributePaths graph.nodes)) ∧
    (∀ (submodule : Submodule) (traced : Graph),
      (trace flattenAll submodule).outcome = .ok traced →
        (trace flattenAll { submodule with overridden := true }).outcome = .ok traced) := by
  refine ⟨fun root path rest => ⟨root.descendant?_eq_descend path,
    root.descendant?_joined path rest, Forest.find?_eq_findByCut _ path, ?_⟩, ?_, ?_, ?_⟩
  · rw [Forest.get_eq, ← Forest.find?_eq_findByCut]
    rfl
  · intro leaf root graph success node member path
    exact ⟨Tracing.call_of_trace success member, Tracing.read_of_trace success member⟩
  · exact fun rules program graph => attributePaths_normalize
  · exact fun submodule traced => outcome_trace_overridden

theorem looseCaller_paths_coherent :
    (∃ graph, (trace keepOpaque looseCaller).outcome = .ok graph ∧
      (∃ node ∈ graph.nodes, node.op = .callModule "block.loose.inner") ∧
      ∃ child, keepOpaque child "block.loose.inner" = true ∧
        looseCaller.descendant? "block.loose.inner" = some child) ∧
    ∃ graph, (normalize reluRules scaledRelu).outcome = .ok graph ∧
      Graph.attributePaths graph.nodes = ["scale.weight"] := by
  obtain ⟨-, traces, normalizes, -⟩ := paths_are_coherent
  constructor
  · have found : (traceWithin keepOpaque 100 looseCaller).any (fun report =>
        report.outcome.toOption.any fun graph =>
          graph.nodes.any (·.op = .callModule "block.loose.inner")) = true := by decide +kernel
    obtain ⟨graph, success, calls⟩ := exists_trace_of_within (by decide) found
    obtain ⟨node, member, isCall⟩ := List.any_eq_true.mp calls
    have isCall := of_decide_eq_true isCall
    obtain ⟨_, _, _, child, -, -, -, -, isLeaf, leads⟩ :=
      (traces _ _ graph success node member _).1 isCall
    exact ⟨graph, success, ⟨node, member, isCall⟩, child, isLeaf, leads⟩
  · obtain ⟨graph, success⟩ := exists_normalize_scaledRelu
    have expected := normalizes reluRules scaledRelu graph ⟨by decide, by decide⟩ success
    have found : (traceWithin flattenAll 100 { scaleModule with overridden := true }).any
        (fun report => report.outcome.toOption.any fun traced =>
          Graph.attributePaths traced.nodes = ["weight"]) = true := by decide +kernel
    obtain ⟨traced, tracing, isWeight⟩ := exists_trace_of_within (by decide) found
    have weight : Graph.attributePaths traced.nodes = ["weight"] := of_decide_eq_true isWeight
    have scale : (Op.callModule "scale").expectedPaths reluRules [("scale", scaleModule)] =
        .ok ["scale.weight"] := by
      show ((trace flattenAll { scaleModule with overridden := true }).outcome >>= _) = _
      rw [tracing]
      show Except.ok ((Graph.attributePaths traced.nodes).map ("scale" ++ "." ++ ·)) = _
      rw [weight]
      rfl
    refine ⟨graph, success, Except.ok.inj (expected.symm.trans ?_)⟩
    simp only [scaledRelu, Graph.expectedPaths]
    rw [scale]
    rfl

end OpGraph
