import Mathlib.Data.List.Forall2
import OpGraph.Proofs.TracedPaths

/-!
# Calls of opaque submodules

Normalization makes a piece of the result from every node of a graph, and the pieces stand in the
order of the nodes (`Node.Becomes`).  A call of a submodule of an opaque class stays the node that
it is; only what it reads may have been replaced.  A call of any other submodule gives way to the
operations of its flattened trace, and other operations get their canonical names.

The class of a submodule counts where the graph itself calls it.  A trace that is expanded has been
flattened as a whole, so submodules that are called from an expanded body leave no calls behind,
whatever their class.
-/

namespace OpGraph

namespace Op

variable {rules : Rules} {submodules : Forest}

/-- The operation calls a submodule of an opaque class. -/
def callsOpaque (rules : Rules) (submodules : Forest) : Op → Bool
  | callModule path =>
    (submodules.find? path).any fun submodule => rules.opaqueClasses.contains submodule.className
  | _ => false

/-- The operation under its canonical name. -/
def renamed (rules : Rules) : Op → Op
  | callMethod method =>
    match rules.methodFunctions[method]? with
    | some function => callFunction (rules.canonical function)
    | none => callMethod method
  | callFunction function => callFunction (rules.canonical function)
  | op => op

/-- The operation with attributes read under a scope. -/
def within (scope : String) : Op → Op
  | getAttr path => getAttr (scope ++ path)
  | op => op

theorem isModuleCall_renamed (rules : Rules) (op : Op) :
    (op.renamed rules).isModuleCall = op.isModuleCall := by
  cases op with
  | callMethod method =>
      rw [renamed]
      split
      · rfl
      · rfl
  | placeholder | getAttr | callFunction | callModule | output => rfl

theorem isModuleCall_within (scope : String) (op : Op) :
    (op.within scope).isModuleCall = op.isModuleCall := by
  cases op with
  | placeholder | getAttr | callFunction | callMethod | callModule | output => rfl

theorem isModuleCall_of_callsOpaque {op : Op} (isOpaque : op.callsOpaque rules submodules = true) :
    op.isModuleCall = true := by
  cases op with
  | callModule path => rfl
  | placeholder | getAttr | callFunction | callMethod | output => cases isOpaque

theorem IsNormal.callsOpaque {op : Op} (normal : op.IsNormal rules submodules)
    (isCall : op.isModuleCall = true) : op.callsOpaque rules submodules = true := by
  cases op with
  | callModule path =>
      obtain ⟨submodule, found, isOpaque⟩ := normal
      rw [Op.callsOpaque, found]
      exact isOpaque
  | placeholder | getAttr | callFunction | callMethod | output => cases isCall

theorem IsNormal.renamed_eq {op : Op} (normal : op.IsNormal rules submodules) :
    op.renamed rules = op := by
  cases op with
  | callMethod method =>
      have unlisted : rules.methodFunctions[method]? = none := normal
      rw [renamed, unlisted]
  | callFunction function =>
      have canonical : rules.canonical function = function := normal
      rw [renamed, canonical]
  | placeholder | getAttr | callModule | output => rfl

theorem StandsFor.renamed_eq {op : Op} {function : FunctionPath}
    (standsFor : op.StandsFor rules function) : op.renamed rules = callFunction function := by
  cases standsFor with
  | method listed => rw [renamed, listed]
  | function => rfl

end Op

/-- The operations of a traced body between its inputs and its output. -/
def Graph.innerOps (nodes : List Node) : List Op :=
  ((Graph.beforeOutput nodes).filter fun node => node.op ≠ .placeholder).map fun node => node.op

/-- The operations that normalization puts in the place of an operation that it does not keep as an
opaque call. -/
inductive Op.Gives (rules : Rules) (submodules : Forest) : Op → List Op → Prop where
  /-- A call gives way to the flattened trace of the submodule. -/
  | expanded {path : String} {submodule : Submodule} {body : Graph}
      (found : submodules.find? path = some submodule)
      (expandable : rules.opaqueClasses.contains submodule.className = false)
      (traced : (trace flattenAll { submodule with overridden := true }).outcome = .ok body) :
      Gives rules submodules (.callModule path)
        ((Graph.innerOps body.nodes).map fun op => (op.within (path ++ ".")).renamed rules)
  /-- Any other operation gets its canonical name. -/
  | renamed {op : Op} (noCall : op.isModuleCall = false) :
      Gives rules submodules op [op.renamed rules]

namespace Op.Gives

variable {rules : Rules} {submodules : Forest} {op : Op} {ops : List Op}

theorem callsOpaque_eq_false (gives : op.Gives rules submodules ops) :
    op.callsOpaque rules submodules = false := by
  cases gives with
  | expanded found expandable =>
      rw [callsOpaque, found]
      exact expandable
  | renamed noCall =>
      cases isOpaque : op.callsOpaque rules submodules with
      | false => rfl
      | true => exact (isModuleCall_of_callsOpaque isOpaque).symm.trans noCall

/-- Nothing that is given calls a submodule, as the trace has been flattened. -/
theorem noCalls (gives : op.Gives rules submodules ops) : ∀ given ∈ ops,
    given.isModuleCall = false := by
  intro given member
  cases gives with
  | expanded found expandable traced =>
      obtain ⟨inner, isInner, rfl⟩ := List.mem_map.mp member
      obtain ⟨node, isNode, rfl⟩ := List.mem_map.mp isInner
      have recorded := (List.takeWhile_sublist _).subset (List.mem_of_mem_filter isNode)
      have noCalls := List.countP_eq_zero.mp (moduleCalls_trace traced) node recorded
      rw [isModuleCall_renamed, isModuleCall_within]
      exact Bool.eq_false_of_not_eq_true noCalls
  | renamed noCall =>
      rw [List.mem_singleton.mp member, isModuleCall_renamed]
      exact noCall

theorem eq_of_noCall (gives : op.Gives rules submodules ops) (noCall : op.isModuleCall = false) :
    ops = [op.renamed rules] := by
  cases gives with
  | expanded => cases noCall
  | renamed => rfl

end Op.Gives

namespace Node

/-- The node is still there; only what it reads may have been replaced. -/
structure Kept (node later : Node) : Prop where
  id : later.id = node.id
  name : later.name = node.name
  instruction : ∃ image, later.toInstruction = node.toInstruction.bind image

theorem Kept.refl (node : Node) : node.Kept node :=
  ⟨rfl, rfl, Argument.ref, (Instruction.bind_ref _).symm⟩

theorem Kept.op {node later : Node} (kept : node.Kept later) : later.op = node.op := by
  obtain ⟨image, same⟩ := kept.instruction
  rw [same]
  rfl

theorem Kept.redirect {node later : Node} (kept : node.Kept later) (old : NodeId) (new : Arg) :
    node.Kept (later.redirect old new) := by
  obtain ⟨image, same⟩ := kept.instruction
  refine ⟨kept.id, kept.name, fun target => (image target).bind (Argument.single old new), ?_⟩
  rw [Node.redirect, same, Instruction.bind_bind]

/-- What normalization makes of a node. -/
inductive Becomes (rules : Rules) (submodules : Forest) (node : Node) : List Node → Prop where
  /-- A call of a submodule of an opaque class stays. -/
  | kept {later : Node} (isOpaque : node.op.callsOpaque rules submodules = true)
      (kept : node.Kept later) : Becomes rules submodules node [later]
  /-- Anything else gives way to other operations. -/
  | given {piece : List Node}
      (gives : node.op.Gives rules submodules (piece.map fun later => later.op)) :
      Becomes rules submodules node piece

/-- What has become of a node in the course of normalization. -/
inductive Yields (rules : Rules) (submodules : Forest) (node : Node) : List Node → Prop where
  /-- The node is still there. -/
  | untouched {later : Node} (kept : node.Kept later) : Yields rules submodules node [later]
  /-- The node has been replaced by others, some of which have yet to get their names. -/
  | replaced {piece : List Node}
      (gives : node.op.Gives rules submodules (piece.map fun later => later.op.renamed rules)) :
      Yields rules submodules node piece

variable {rules : Rules} {submodules : Forest} {node : Node} {piece : List Node}

theorem Yields.map_redirect (yields : node.Yields rules submodules piece) (old : NodeId)
    (new : Arg) : node.Yields rules submodules (piece.map (Node.redirect old new)) := by
  cases yields with
  | untouched kept => exact .untouched (kept.redirect old new)
  | replaced gives =>
      refine .replaced ?_
      rw [List.map_map]
      exact gives

theorem Yields.becomes (yields : node.Yields rules submodules piece)
    (normal : ∀ later ∈ piece, later.op.IsNormal rules submodules) :
    node.Becomes rules submodules piece := by
  cases yields with
  | @untouched later kept =>
      have settled := normal later (List.mem_singleton_self later)
      cases isCall : node.op.isModuleCall with
      | true =>
          refine .kept ?_ kept
          rw [← kept.op] at isCall ⊢
          exact settled.callsOpaque isCall
      | false =>
          refine .given ?_
          rw [List.map_singleton, ← settled.renamed_eq, kept.op]
          exact .renamed isCall
  | replaced gives =>
      refine .given ?_
      rw [List.map_congr_left fun later member => (normal later member).renamed_eq] at gives
      exact gives

theorem forall₂_becomes {sources : List Node} {pieces : List (List Node)}
    (yields : List.Forall₂ (Yields rules submodules) sources pieces)
    (normal : ∀ later ∈ pieces.flatten, later.op.IsNormal rules submodules) :
    List.Forall₂ (Becomes rules submodules) sources pieces := by
  induction yields with
  | nil => exact .nil
  | cons here _ ih =>
      rw [List.flatten_cons, List.forall_mem_append] at normal
      exact .cons (here.becomes normal.1) (ih normal.2)

end Node

/-! ### Runs -/

namespace Expansion.Copies

variable {scope : String} {nodes added : List Node} {args : List Arg} {env : Env}
variable {graph final : Graph} {value : Arg}

/-- The copied nodes have the operations between inputs and output, under the scope. -/
theorem map_op_eq (copies : Copies scope nodes args env graph added final value) :
    (added.map fun new => new.op) = (Graph.innerOps nodes).map (Op.within scope) := by
  induction copies with
  | input isInput _ ih =>
      rw [Graph.innerOps, Graph.beforeOutput_cons (Op.ne_output_of_isInput isInput),
        List.filter_cons_of_neg (by simpa using isInput)]
      exact ih
  | @output node rest _ _ _ _ _ _ isOutput =>
      have none : Graph.beforeOutput (node :: rest) = [] :=
        List.takeWhile_cons_of_neg (by simpa using isOutput)
      rw [Graph.innerOps, none]
      rfl
  | @inner node rest added instruction _ _ _ graph _ relocated _ ih =>
      have op : instruction.op = node.op.within scope := by
        cases relocated with
        | read isAttribute => rw [isAttribute, Op.within]
        | call isCall found =>
            rw [Instruction.op_traverse found]
            cases isOp : node.op with
            | getAttr path =>
                rw [isOp] at isCall
                cases isCall
            | placeholder | callFunction | callMethod | callModule | output => rfl
      have notInput : node.op ≠ .placeholder := by
        intro isInput
        rw [isInput] at op
        exact relocated.isInner.1 op
      rw [Graph.innerOps, Graph.beforeOutput_cons relocated.notOutput,
        List.filter_cons_of_pos (by simpa using notInput), List.map_cons, List.map_cons,
        List.map_cons, ih, ← op]
      rfl

end Expansion.Copies

namespace Scan

variable {rules : Rules} {submodules : Forest} {scan next : Scan} {node source : Node}

theorem Exchange.gives {graph final : Graph} {added : List Node} {value : Arg}
    (exchange : Exchange rules submodules graph node added final value) :
    node.op.Gives rules submodules (added.map fun new => new.op.renamed rules) := by
  cases exchange with
  | @renamed function standsFor =>
      have noCall : node.op.isModuleCall = false := by
        rw [← Op.isModuleCall_renamed rules, standsFor.renamed_eq]
        rfl
      have gives := @Op.Gives.renamed rules submodules node.op noCall
      rw [standsFor.renamed_eq, ← standsFor.canonical] at gives
      exact gives
  | @expansion path submodule body _ _ _ isCall found expandable traced _ copies =>
      have gives := Op.Gives.expanded found expandable traced
      have ops : (added.map fun new => new.op.renamed rules) =
          (Graph.innerOps body.nodes).map fun op => (op.within (path ++ ".")).renamed rules := by
        have copied := congrArg (List.map (Op.renamed rules)) copies.map_op_eq
        rw [List.map_map, List.map_map] at copied
        exact copied
      rw [isCall, ops]
      exact gives

/-- What takes the place of a node takes its place in the piece that holds it. -/
theorem Exchange.yields {graph final : Graph} {before added after : List Node} {value : Arg}
    (exchange : Exchange rules submodules graph node added final value)
    (yields : source.Yields rules submodules (before ++ node :: after)) :
    source.Yields rules submodules (before ++ added ++ after) := by
  generalize pieceEq : before ++ node :: after = piece at yields
  cases yields with
  | @untouched later kept =>
      obtain ⟨rfl, rfl, rfl⟩ : before = [] ∧ node = later ∧ after = [] := by
        cases before with
        | nil => simpa using pieceEq
        | cons first rest => simp at pieceEq
      refine .replaced ?_
      rw [List.nil_append, List.append_nil, ← kept.op]
      exact exchange.gives
  | replaced gives =>
      subst pieceEq
      -- The node is no call of a submodule, so it can only be given another name.
      have noCall : node.op.isModuleCall = false := by
        rw [← Op.isModuleCall_renamed rules]
        exact gives.noCalls _ (List.mem_map_of_mem (by simp))
      refine .replaced ?_
      rw [List.map_append, List.map_append, exchange.gives.eq_of_noCall noCall]
      rw [List.map_append, List.map_cons, List.append_cons] at gives
      exact gives

/-- Replacing a node in the concatenation of all pieces replaces it in one of them. -/
theorem Exchange.forall₂_yields {graph final : Graph} {before added after sources : List Node}
    {pieces : List (List Node)} {value : Arg}
    (exchange : Exchange rules submodules graph node added final value)
    (yields : List.Forall₂ (Node.Yields rules submodules) sources pieces)
    (split : pieces.flatten = before ++ node :: after) :
    ∃ changed, List.Forall₂ (Node.Yields rules submodules) sources changed ∧
      changed.flatten = before ++ added ++ after := by
  induction yields generalizing before with
  | nil => simp at split
  | @cons source piece sources pieces here later ih =>
      rw [List.flatten_cons] at split
      rcases List.append_eq_append_iff.mp split with
        ⟨middle, isBefore, split⟩ | ⟨middle, isPiece, split⟩
      · obtain ⟨changed, yields, flattened⟩ := ih split
        refine ⟨piece :: changed, .cons here yields, ?_⟩
        rw [List.flatten_cons, flattened, isBefore, List.append_assoc, List.append_assoc,
          List.append_assoc]
      · cases middle with
        | nil =>
            obtain ⟨changed, yields, flattened⟩ := @ih [] split.symm
            refine ⟨piece :: changed, .cons here yields, ?_⟩
            rw [List.flatten_cons, flattened, isPiece]
            simp
        | cons first rest =>
            obtain ⟨rfl, rfl⟩ := List.cons.inj split
            refine ⟨(before ++ added ++ rest) :: pieces, .cons ?_ later, ?_⟩
            · exact exchange.yields (isPiece ▸ here)
            · exact List.append_assoc _ _ _

/-- The graph of a scan consists of what the nodes at the start have become so far. -/
structure Composed (rules : Rules) (submodules : Forest) (sources : List Node) (scan : Scan) :
    Prop where
  settled : scan.Settled rules submodules
  pieces : ∃ pieces, List.Forall₂ (Node.Yields rules submodules) sources pieces ∧
    scan.graph.nodes = pieces.flatten

theorem Composed.visit {sources : List Node} (composed : scan.Composed rules submodules sources)
    (found : scan.graph.nodes[scan.cursor]? = some node)
    (visit : Visit rules submodules scan node next) : next.Composed rules submodules sources := by
  refine ⟨composed.settled.visit found visit, ?_⟩
  obtain ⟨pieces, yields, nodes⟩ := composed.pieces
  cases visit with
  | passed => exact ⟨pieces, yields, nodes⟩
  | @exchanged added final value count exchange =>
      obtain ⟨before, after, split, -⟩ := Graph.exists_split_of_getElem? found
      obtain ⟨wellFormed, gap⟩ := exchange.gap composed.settled.wellFormed split
      obtain ⟨changed, yields, flattened⟩ := exchange.forall₂_yields yields (nodes ▸ split)
      refine ⟨changed.map (List.map (Node.redirect node.id value)), ?_, ?_⟩
      · rw [List.forall₂_map_right_iff]
        exact yields.imp fun _ _ here => here.map_redirect node.id value
      · show (dismiss scan.graph final node value).nodes = _
        rw [nodes_dismiss_map wellFormed gap, ← flattened, List.map_flatten]

end Scan

variable {rules : Rules} {program : Program} {graph : Graph}

/-- A normalized graph consists of what its nodes have become. -/
theorem exists_pieces_of_normalize (wellFormed : program.graph.WellFormed)
    (success : (normalize rules program).outcome = .ok graph) :
    ∃ pieces,
      List.Forall₂ (Node.Becomes rules program.submodules) program.graph.nodes pieces ∧
        graph.nodes = pieces.flatten := by
  obtain ⟨-, normal⟩ := settled_normalize wellFormed success
  have start : Scan.Composed rules program.submodules program.graph.nodes
      { graph := program.graph, cursor := 0 } := by
    refine ⟨Scan.settled_start wellFormed, program.graph.nodes.map fun node => [node], ?_, ?_⟩
    · rw [List.forall₂_map_right_iff, List.forall₂_same]
      exact fun node _ => .untouched (.refl node)
    · exact (List.flatMap_singleton' program.graph.nodes).symm
  rw [outcome_normalize] at success
  obtain ⟨last, composed, rfl, -⟩ :=
    Scan.run_induction (fun _ _ _ composed found visit => composed.visit found visit) start success
  obtain ⟨pieces, yields, nodes⟩ := composed.pieces
  exact ⟨pieces, Node.forall₂_becomes yields (nodes ▸ normal), nodes⟩

/-- The submodule calls of the pieces are the kept calls. -/
theorem forall₂_kept_of_becomes {submodules : Forest} {sources : List Node}
    {pieces : List (List Node)}
    (becomes : List.Forall₂ (Node.Becomes rules submodules) sources pieces) :
    List.Forall₂ Node.Kept
      (sources.filter fun node => node.op.callsOpaque rules submodules)
      (pieces.flatten.filter fun node => node.op.isModuleCall) := by
  induction becomes with
  | nil => exact .nil
  | @cons source piece sources pieces here _ ih =>
      rw [List.flatten_cons, List.filter_append]
      cases here with
      | @kept later isOpaque kept =>
          have isCall : later.op.isModuleCall = true := by
            rw [kept.op]
            exact Op.isModuleCall_of_callsOpaque isOpaque
          rw [List.filter_cons, if_pos isOpaque, List.filter_singleton, isCall]
          exact .cons kept ih
      | given gives =>
          have noCalls : (piece.filter fun node => node.op.isModuleCall) = [] := by
            rw [List.filter_eq_nil_iff]
            intro later member isCall
            have noCall := gives.noCalls later.op (List.mem_map_of_mem member)
            exact Bool.false_ne_true (noCall.symm.trans isCall)
          rw [List.filter_cons, gives.callsOpaque_eq_false, if_neg Bool.false_ne_true, noCalls,
            List.nil_append]
          exact ih

/-- The submodules of opaque classes that a graph calls itself are never expanded.  The result of a
normalization is made piece by piece from the nodes of the graph: every such call stays, with its
identity, name and record, and everything else gives way to operations among which there is no
submodule call, as expanded traces are flattened whatever the classes in them.  So the submodule
calls of the result are the calls of opaque submodules that the graph made itself, in order. -/
theorem direct_opaque_calls_remain {rules : Rules} {program : Program} {graph : Graph}
    (wellFormed : program.graph.WellFormed)
    (success : (normalize rules program).outcome = .ok graph) :
    (∃ pieces,
      List.Forall₂ (Node.Becomes rules program.submodules) program.graph.nodes pieces ∧
        graph.nodes = pieces.flatten) ∧
    List.Forall₂ Node.Kept
      (program.graph.nodes.filter fun node => node.op.callsOpaque rules program.submodules)
      (graph.nodes.filter fun node => node.op.isModuleCall) := by
  obtain ⟨pieces, becomes, nodes⟩ := exists_pieces_of_normalize wellFormed success
  refine ⟨⟨pieces, becomes, nodes⟩, ?_⟩
  rw [nodes]
  exact forall₂_kept_of_becomes becomes

/-- Products are not to be expanded. -/
def productRules : Rules := ({} : Rules).withOpaqueClass "Product"

/-- A product is called by the graph and within the body of another submodule. -/
def scaledProduct : Program where
  graph :=
    { nodes :=
        [{ op := .placeholder, id := ⟨0⟩, name := "input" },
          { op := .callModule "scale", args := [.ref ⟨0⟩], id := ⟨1⟩, name := "scale" },
          { op := .callModule "product", args := [.ref ⟨1⟩, .ref ⟨0⟩], id := ⟨2⟩,
            name := "product" },
          { op := .output, args := [.ref ⟨2⟩], id := ⟨3⟩, name := "output" }]
      created := 4 }
  submodules := [("product", productModule), ("scale", scaleModule)]

theorem exists_normalize_scaledProduct :
    ∃ graph, (normalize productRules scaledProduct).outcome = .ok graph ∧
      (graph.nodes.map fun node => node.op) =
        [.placeholder, .getAttr "scale.weight", .callFunction ⟨"torch.mul"⟩, .callModule "product",
          .output] := by
  let node : Node := { op := .callModule "scale", args := [.ref ⟨0⟩], id := ⟨1⟩, name := "scale" }
  let ops : List Op := [.placeholder, .getAttr "scale.weight", .callFunction ⟨"torch.mul"⟩,
    .callModule "product", .output]
  have expands : (Scan.expandFor 9 scaledProduct.graph node "scale" scaleModule).any
      (fun graph => (graph.nodes.map fun node => node.op) = ops) = true := by
    decide +kernel
  obtain ⟨expanded, found, sameOps⟩ := (Option.any_eq_true _ _).mp expands
  have sameOps := of_decide_eq_true sameOps
  have canonical : productRules.canonical ⟨"torch.mul"⟩ = ⟨"torch.mul"⟩ :=
    Rules.followAliases_of_none rfl
  have normal : ∀ op ∈ ops, op.IsNormal productRules scaledProduct.submodules := by
    simp only [ops, List.forall_mem_cons]
    exact ⟨trivial, trivial, canonical, ⟨productModule, rfl, by decide⟩, trivial, by simp⟩
  refine ⟨expanded, ?_, sameOps⟩
  exact @outcome_normalize_of_expandFor productRules scaledProduct
    [{ op := .placeholder, id := ⟨0⟩, name := "input" }] _ node _ _ _ expanded rfl
    (List.forall_mem_singleton.mpr trivial) rfl rfl (by decide) rfl rfl found
    fun other member => normal other.op (sameOps ▸ List.mem_map_of_mem member)

/-- The call that the graph makes itself stays. -/
theorem scaledProduct_keeps_direct_call :
    ∃ graph, (normalize productRules scaledProduct).outcome = .ok graph ∧
      ∃ kept, (graph.nodes.filter fun node => node.op.isModuleCall) = [kept] ∧
        kept.id = ⟨2⟩ ∧ kept.name = "product" ∧ kept.op = .callModule "product" := by
  obtain ⟨graph, success, -⟩ := exists_normalize_scaledProduct
  obtain ⟨-, calls⟩ := direct_opaque_calls_remain ⟨by decide, by decide⟩ success
  have direct : (scaledProduct.graph.nodes.filter fun node =>
      node.op.callsOpaque productRules scaledProduct.submodules) =
        [{ op := .callModule "product", args := [.ref ⟨1⟩, .ref ⟨0⟩], id := ⟨2⟩,
           name := "product" }] := by
    decide
  rw [direct, List.forall₂_cons_left_iff] at calls
  obtain ⟨kept, rest, same, none, split⟩ := calls
  rw [List.forall₂_nil_left_iff.mp none] at split
  exact ⟨graph, success, kept, split, same.id, same.name, same.op⟩

/-- The body of the expanded submodule calls a product as well.  That call is gone, and the body of
the product has taken its place, although the class of the product is opaque. -/
theorem nested_opaque_call_is_flattened :
    productRules.opaqueClasses.contains productModule.className = true ∧
    scaledProduct.submodules.find? "scale" = some scaleModule ∧
    scaleModule.Performs (.callModule "product") ∧
    scaleModule.descendant? "product" = some productModule ∧
    ∃ graph, (normalize productRules scaledProduct).outcome = .ok graph ∧
      (graph.nodes.map fun node => node.op) =
        [.placeholder, .getAttr "scale.weight", .callFunction ⟨"torch.mul"⟩, .callModule "product",
          .output] := by
  refine ⟨by decide, rfl, ⟨_, rfl, ?_⟩, rfl, exists_normalize_scaledProduct⟩
  exact ⟨_, List.mem_cons_of_mem _ (List.mem_cons_of_mem _ List.mem_cons_self), rfl⟩

end OpGraph
