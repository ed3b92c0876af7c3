import OpGraph.Normalization
import OpGraph.Proofs.TracingSteps

/-!
# The steps of normalization

An expansion copies traced nodes up to the first output (`Expansion.Copies`) into the gap before the
call, and the copies read only what stands before them (`Expansion.Copies.spliced`).

A scan has passed the nodes before its cursor, and they are in normal form (`Scan.Settled`).  A
visit passes the next node, passes it with another function, or puts the copies of an expansion in
its place (`Scan.Visit`); each of these keeps the graph valid (`Scan.Stage.visit`).
-/

namespace OpGraph

namespace Expansion

/-- Copying `nodes` into `graph` creates the nodes `added`, which leaves `final`, and the copied
body has the value `value`.  Each input of the body is bound to the next of `args`. -/
inductive Copies (scope : String) :
    List Node → List Arg → Env → Graph → List Node → Graph → Arg → Prop where
  /-- An input is bound to an argument. -/
  | input {node : Node} {rest added : List Node} {argument value : Arg} {args : List Arg}
      {env : Env} {graph final : Graph} (isInput : node.op = .placeholder)
      (copies : Copies scope rest args (env.insert node.id argument) graph added final value) :
      Copies scope (node :: rest) (argument :: args) env graph added final value
  /-- The first output ends the copying. -/
  | output {node : Node} {rest : List Node} {result value : Arg} {others args : List Arg}
      {env : Env} {graph : Graph} (isOutput : node.op = .output)
      (results : node.args = result :: others)
      (found : result.traverse env.value = .ok value) :
      Copies scope (node :: rest) args env graph [] graph value
  /-- Any other node is copied. -/
  | inner {node : Node} {rest added : List Node} {instruction : Instruction} {value : Arg}
      {args : List Arg} {env : Env} {graph final : Graph}
      (relocated : node.Relocated scope env instruction)
      (copies : Copies scope rest args (env.insert node.id (.ref graph.nextId))
        (graph.emit instruction none) added final value) :
      Copies scope (node :: rest) args env graph (graph.newNode instruction none :: added) final
        value

theorem copies_of_copyNodes {site : Site} {nodes : List Node} {args : List Arg} {env : Env}
    {graph : Graph} {value : Arg}
    (success : (copyNodes site nodes args env graph).2.outcome = .ok value) :
    ∃ added, Copies site.scope nodes args env graph added
      (copyNodes site nodes args env graph).1 value := by
  induction nodes generalizing args env graph with
  | nil => cases success
  | cons node rest ih =>
      unfold copyNodes at success ⊢
      split at success
      · next isInput =>
        split at success
        · cases success
        · obtain ⟨added, copies⟩ := ih success
          exact ⟨added, .input isInput copies⟩
      · next isOutput =>
        split at success
        · cases success
        · next results => exact ⟨[], .output isOutput results success⟩
      · next path isAttribute =>
        obtain ⟨added, copies⟩ := ih success
        exact ⟨_, .inner (.read isAttribute) copies⟩
      · next noInput noOutput noAttribute =>
        have isCall : node.op.isCall = true := by
          cases op : node.op with
          | placeholder => exact absurd op noInput
          | getAttr path => exact absurd op (noAttribute path)
          | output => exact absurd op noOutput
          | callFunction | callMethod | callModule => rfl
        split at success
        · cases success
        · next instruction found =>
          obtain ⟨added, copies⟩ := ih success
          exact ⟨_, .inner (.call isCall found) copies⟩

/-- Nodes have been put between `before` and `after`, and `value` can be read behind them. -/
structure Spliced (final : Graph) (before added after : List Node) (value : Arg) : Prop where
  /-- The identities of the graph are in order. -/
  wellFormed : final.WellFormed
  /-- The next node would be placed behind the added ones. -/
  gap : final.Gap (before ++ added) after
  /-- No input and no output has been added. -/
  inner : ∀ node ∈ added, node.op.IsInner
  /-- The added nodes read only earlier ones. -/
  closed : Graph.Closed {id | id ∈ before.map Node.id} added
  /-- The value refers to earlier or added nodes. -/
  known : ∀ id ∈ value.refs, id ∈ (before ++ added).map Node.id

/-- The copies are put into the gap, which then lies behind them. -/
theorem Copies.gap {scope : String} {nodes before added after : List Node} {args : List Arg}
    {env : Env} {graph final : Graph} {value : Arg}
    (copies : Copies scope nodes args env graph added final value)
    (wellFormed : graph.WellFormed) (gap : graph.Gap before after) :
    final.WellFormed ∧ final.Gap (before ++ added) after := by
  induction copies generalizing before with
  | input _ _ ih => exact ih wellFormed gap
  | output => exact ⟨wellFormed, by rwa [List.append_nil]⟩
  | @inner node rest added instruction value args env graph final relocated copies ih =>
      have placed := ih (wellFormed.emit instruction none) (gap.emit wellFormed instruction none)
      rwa [List.append_assoc] at placed

theorem Copies.isInner {scope : String} {nodes added : List Node} {args : List Arg} {env : Env}
    {graph final : Graph} {value : Arg}
    (copies : Copies scope nodes args env graph added final value) :
    ∀ node ∈ added, node.op.IsInner := by
  induction copies with
  | input _ _ ih => exact ih
  | output => exact fun _ member => absurd member List.not_mem_nil
  | inner relocated _ ih => exact List.forall_mem_cons.mpr ⟨relocated.isInner, ih⟩

theorem Copies.spliced {scope : String} {nodes before added after : List Node} {args : List Arg}
    {env : Env} {graph final : Graph} {value : Arg}
    (copies : Copies scope nodes args env graph added final value)
    (wellFormed : graph.WellFormed) (gap : graph.Gap before after)
    (within : env.Within {id | id ∈ before.map Node.id})
    (knownArgs : ∀ argument ∈ args, ∀ id ∈ argument.refs, id ∈ before.map Node.id) :
    Spliced final before added after value := by
  obtain ⟨wellFormedFinal, gapFinal⟩ := copies.gap wellFormed gap
  suffices reads : Graph.Closed {id | id ∈ before.map Node.id} added ∧
      ∀ id ∈ value.refs, id ∈ (before ++ added).map Node.id from
    ⟨wellFormedFinal, gapFinal, copies.isInner, reads.1, reads.2⟩
  clear gapFinal wellFormedFinal gap wellFormed
  induction copies generalizing before with
  | @input node rest added argument value args env graph final isInput copies ih =>
      refine ih (within.insert subset_rfl ?_ node.id) ?_
      · exact knownArgs argument List.mem_cons_self
      · exact fun other member => knownArgs other (List.mem_cons_of_mem _ member)
  | output isOutput results found =>
      refine ⟨trivial, ?_⟩
      rw [List.append_nil]
      exact within.refs_traverse found
  | @inner node rest added instruction value args env graph final relocated copies ih =>
      let new := graph.newNode instruction none
      have grown : {id | id ∈ (before ++ [new]).map Node.id} =
          insert new.id {id | id ∈ before.map Node.id} := by
        ext id
        simp [or_comm]
      have subset : {id | id ∈ before.map Node.id} ⊆ {id | id ∈ (before ++ [new]).map Node.id} := by
        rw [grown]
        exact Set.subset_insert _ _
      obtain ⟨closed, known⟩ := ih
        (within.insert subset
          (fun id isRef => by
            obtain rfl := List.mem_singleton.mp isRef
            rw [grown]
            exact Set.mem_insert _ _) node.id)
        (fun argument member id isRef => subset (knownArgs argument member id isRef))
      have assoc : before ++ [new] ++ added = before ++ new :: added := by simp
      refine ⟨⟨relocated.inputs_known within, ?_⟩, assoc ▸ known⟩
      rw [← grown]
      exact closed

theorem outcome_enclose_eq_ok {α : Type} {className : String} {report : Report α} {value : α} :
    (enclose className report).outcome = .ok value ↔ report.outcome = .ok value := by
  unfold enclose
  split
  · exact Iff.rfl
  · next cause failure => simp [failure]

/-- A successful expansion copies the trace of the submodule, whose input check is overridden. -/
theorem copies_of_expand {scope : String} {graph : Graph} {submodule : Submodule}
    {args : List Arg} {kwargs : Kwargs NodeId} {value : Arg}
    (success : (expand scope graph submodule args kwargs).report.outcome = .ok value) :
    ∃ body added,
      (trace flattenAll { submodule with overridden := true }).outcome = .ok body ∧
        kwargs.isEmpty = true ∧
          Copies scope body.nodes args ∅ graph added
            (expand scope graph submodule args kwargs).graph
            value := by
  unfold expand at success ⊢
  split at success
  · cases outcome_enclose_eq_ok.mp success
  · next held holding =>
    have overridden : held = { submodule with overridden := true } := by
      unfold Submodule.holdCheck at holding
      split at holding
      · cases holding
      · exact (Except.ok.inj holding).symm
    have spliced := outcome_enclose_eq_ok.mp success
    unfold splice at spliced ⊢
    split at spliced
    · next noKwargs =>
      dsimp only at spliced ⊢
      split at spliced
      · cases spliced
      · next body traced =>
        obtain ⟨added, copies⟩ := copies_of_copyNodes spliced
        refine ⟨body, added, overridden ▸ traced, noKwargs, ?_⟩
        rw [if_pos noKwargs]
        exact copies
    · cases spliced

end Expansion

/-! ### Canonical functions -/

namespace Rules

theorem followAliases_of_none {aliases : FunctionMap FunctionPath} {function : FunctionPath}
    (unlisted : aliases[function]? = none) : followAliases aliases function = function := by
  rw [followAliases]
  split
  · next listed => cases unlisted.symm.trans listed
  · rfl

theorem followAliases_of_some {aliases : FunctionMap FunctionPath}
    {function replacement : FunctionPath} (listed : aliases[function]? = some replacement) :
    followAliases aliases function = followAliases (aliases.erase function) replacement := by
  rw [followAliases]
  split
  · next listedOther => rw [Option.some.inj (listed.symm.trans listedOther)]
  · next unlisted => cases listed.symm.trans unlisted

theorem getElem?_erase_of_ne {aliases : FunctionMap FunctionPath} {function other : FunctionPath}
    (different : other ≠ function) : (aliases.erase function)[other]? = aliases[other]? := by
  rw [Std.ExtTreeMap.getElem?_erase, if_neg]
  exact fun equal => different (Std.LawfulEqOrd.eq_of_compare equal).symm

theorem erase_comm (aliases : FunctionMap FunctionPath) (first second : FunctionPath) :
    (aliases.erase first).erase second = (aliases.erase second).erase first := by
  apply Std.ExtTreeMap.ext_getElem?
  intro function
  simp only [Std.ExtTreeMap.getElem?_erase]
  split <;> split <;> rfl

/-- A chain that ends elsewhere when the alias of a function is not there does not come by the
function, so it ends there in any case. -/
theorem followAliases_of_erase {aliases : FunctionMap FunctionPath}
    {function start : FunctionPath}
    (apart : followAliases (aliases.erase function) start ≠ function) :
    followAliases aliases start = followAliases (aliases.erase function) start := by
  induction aliases, start using followAliases.induct with
  | case1 aliases start replacement listed ih =>
      by_cases same : start = function
      · subst same
        exact absurd (followAliases_of_none Std.ExtTreeMap.getElem?_erase_self) apart
      · have listedErased : (aliases.erase function)[start]? = some replacement :=
          (getElem?_erase_of_ne same).trans listed
        rw [followAliases_of_some listedErased, erase_comm] at apart
        rw [followAliases_of_some listed, followAliases_of_some listedErased, erase_comm]
        exact ih apart
  | case2 aliases start unlisted =>
      rw [followAliases_of_none unlisted, followAliases_of_none]
      rw [Std.ExtTreeMap.getElem?_erase, unlisted, ite_self]

/-- A chain that has ended does not go on: it ends at a function without alias, or where it enters
a cycle. -/
theorem followAliases_followAliases (aliases : FunctionMap FunctionPath)
    (function : FunctionPath) :
    followAliases aliases (followAliases aliases function) = followAliases aliases function := by
  induction aliases, function using followAliases.induct with
  | case1 aliases function replacement listed ih =>
      have next := followAliases_of_some listed
      by_cases back : followAliases aliases function = function
      · rw [back, back]
      · rw [next] at back ⊢
        rw [followAliases_of_erase (by rwa [ih]), ih]
  | case2 aliases function unlisted =>
      rw [followAliases_of_none unlisted, followAliases_of_none unlisted]

theorem canonical_canonical (rules : Rules) (function : FunctionPath) :
    rules.canonical (rules.canonical function) = rules.canonical function :=
  followAliases_followAliases rules.aliases function

end Rules

/-! ### Visits -/

namespace Op

/-- Normalization leaves the operation as it is. -/
def IsNormal (rules : Rules) (submodules : Forest) : Op → Prop
  | .callMethod method => rules.methodFunctions[method]? = none
  | .callFunction function => rules.canonical function = function
  | .callModule path => ∃ submodule, submodules.find? path = some submodule ∧
      rules.opaqueClasses.contains submodule.className = true
  | _ => True

/-- The rules let a call of a function stand for the operation. -/
inductive StandsFor (rules : Rules) : Op → FunctionPath → Prop where
  /-- A listed method stands for a function. -/
  | method {method : String} {function : FunctionPath}
      (listed : rules.methodFunctions[method]? = some function) :
      StandsFor rules (.callMethod method) (rules.canonical function)
  /-- A function stands for its canonical form. -/
  | function (function : FunctionPath) :
      StandsFor rules (.callFunction function) (rules.canonical function)

theorem StandsFor.isCall {rules : Rules} {op : Op} {function : FunctionPath}
    (standsFor : op.StandsFor rules function) : op.isCall = true := by
  cases standsFor <;> rfl

/-- What stands for an operation is canonical. -/
theorem StandsFor.canonical {rules : Rules} {op : Op} {function : FunctionPath}
    (standsFor : op.StandsFor rules function) : rules.canonical function = function := by
  cases standsFor with
  | method => exact rules.canonical_canonical _
  | function => exact rules.canonical_canonical _

end Op

namespace Scan

/-- What can take the place of a node: the nodes `added` are put before it, which leaves the graph
`final`, and `value` stands for its value. -/
inductive Exchange (rules : Rules) (submodules : Forest) (graph : Graph) (node : Node) :
    List Node → Graph → Arg → Prop where
  /-- A call of a function with the same arguments. -/
  | renamed {function : FunctionPath} (standsFor : node.op.StandsFor rules function) :
      Exchange rules submodules graph node
        [graph.newNode { node.toInstruction with op := .callFunction function } none]
        (({ graph with insertionPoint := some node.id } : Graph).emit
          { node.toInstruction with op := .callFunction function } none)
        (.ref graph.nextId)
  /-- The copied trace of a submodule. -/
  | expansion {path : String} {submodule : Submodule} {body final : Graph} {added : List Node}
      {value : Arg} (isCall : node.op = .callModule path)
      (found : submodules.find? path = some submodule)
      (expandable : rules.opaqueClasses.contains submodule.className = false)
      (traced : (trace flattenAll { submodule with overridden := true }).outcome = .ok body)
      (noKwargs : node.kwargs.isEmpty = true)
      (copies : Expansion.Copies (path ++ ".") body.nodes node.args ∅
        { graph with insertionPoint := some node.id } added final value) :
      Exchange rules submodules graph node added final value

/-- Remove a node, with `value` for its readers, after `final` has been made from the graph. -/
def dismiss (graph final : Graph) (node : Node) (value : Arg) : Graph :=
  (({ final with insertionPoint := graph.insertionPoint } : Graph).redirect node.id value).drop
    node.id

/-- What a visit of the next node does. -/
inductive Visit (rules : Rules) (submodules : Forest) (scan : Scan) (node : Node) :
    Scan → Prop where
  /-- The node stays as it is. -/
  | passed (normal : node.op.IsNormal rules submodules) :
      Visit rules submodules scan node scan.advance
  /-- Other nodes take its place; of these, the first `passed` ones are done. -/
  | exchanged {added : List Node} {final : Graph} {value : Arg} {passed : Nat}
      (exchange : Exchange rules submodules scan.graph node added final value)
      (normal : ∀ other ∈ added.take passed, other.op.IsNormal rules submodules)
      (within : passed ≤ added.length) :
      Visit rules submodules scan node
        { graph := dismiss scan.graph final node value, cursor := scan.cursor + passed }

theorem visit_callInstead (submodules : Forest) {rules : Rules} {scan : Scan} {node : Node}
    {function : FunctionPath} (standsFor : node.op.StandsFor rules function) :
    Visit rules submodules scan node (scan.callInstead node function) := by
  refine @Visit.exchanged rules submodules scan node _ _ _ 1 (.renamed standsFor) ?_ (Nat.le_refl 1)
  intro other member
  obtain rfl := List.mem_singleton.mp member
  exact standsFor.canonical

theorem visit_expandCall {rules : Rules} {submodules : Forest} {scan next : Scan} {node : Node}
    {path : String} {submodule : Submodule} (isCall : node.op = .callModule path)
    (found : submodules.find? path = some submodule)
    (expandable : rules.opaqueClasses.contains submodule.className = false)
    (success : (scan.expandCall node path submodule).outcome = .ok next) :
    Visit rules submodules scan node next := by
  simp only [expandCall, Graph.insertingBefore, Report.outcome_bind, Report.outcome_ofExcept,
    Report.outcome_pure] at success
  obtain ⟨value, expanded, rest⟩ := Outcome.bind_eq_ok.mp success
  obtain ⟨erased, erasing, same⟩ := Outcome.bind_eq_ok.mp rest
  obtain rfl := Except.ok.inj same
  obtain rfl := Graph.eq_drop_of_erase erasing
  obtain ⟨body, added, traced, noKwargs, copies⟩ := Expansion.copies_of_expand expanded
  refine @Visit.exchanged rules submodules scan node added _ value 0
    (.expansion isCall found expandable traced noKwargs copies) ?_ (Nat.zero_le _)
  exact fun other member => absurd member List.not_mem_nil

/-- A successful visit passes the next node or exchanges it. -/
theorem visit_of_eq_ok {rules : Rules} {submodules : Forest} {scan next : Scan} {node : Node}
    (visited : (scan.visit rules submodules node).outcome = .ok next) :
    Visit rules submodules scan node next := by
  unfold visit at visited
  split at visited
  · next method isMethod =>
    split at visited
    · next function listed =>
      simp only [Report.outcome_bind, Report.outcome_note, Report.outcome_pure] at visited
      obtain rfl := Except.ok.inj visited
      exact visit_callInstead submodules (isMethod ▸ .method listed)
    · next unlisted =>
      obtain rfl := Except.ok.inj visited
      exact .passed (isMethod ▸ unlisted)
  · next function isFunction =>
    dsimp only at visited
    split at visited
    · next canonical =>
      obtain rfl := Except.ok.inj visited
      exact .passed (isFunction ▸ canonical)
    · simp only [Report.outcome_bind, Report.outcome_note, Report.outcome_pure] at visited
      obtain rfl := Except.ok.inj visited
      exact visit_callInstead submodules (isFunction ▸ .function function)
  · next path isCall =>
    simp only [Report.outcome_bind, Report.outcome_ofExcept] at visited
    obtain ⟨submodule, got, rest⟩ := Outcome.bind_eq_ok.mp visited
    have found : submodules.find? path = some submodule := by
      unfold Forest.get at got
      split at got
      · next found => rw [found, Except.ok.inj got]
      · cases got
    split at rest
    · next isOpaque =>
      simp only [Report.outcome_bind, Report.outcome_note, Report.outcome_pure] at rest
      obtain rfl := Except.ok.inj rest
      exact .passed (isCall ▸ ⟨submodule, found, isOpaque⟩)
    · next expandable =>
      simp only [Report.outcome_bind, Report.outcome_note] at rest
      exact visit_expandCall isCall found (Bool.eq_false_of_not_eq_true expandable) rest
  · next noMethod noFunction noCall =>
    obtain rfl := Except.ok.inj visited
    refine .passed ?_
    cases op : node.op with
    | callMethod method => exact absurd op (noMethod method)
    | callFunction function => exact absurd op (noFunction function)
    | callModule path => exact absurd op (noCall path)
    | placeholder | getAttr | output => trivial

/-- The nodes that take the place of a node are put before it. -/
theorem Exchange.gap {rules : Rules} {submodules : Forest} {graph final : Graph} {node : Node}
    {before added after : List Node} {value : Arg}
    (exchange : Exchange rules submodules graph node added final value)
    (wellFormed : graph.WellFormed) (split : graph.nodes = before ++ node :: after) :
    final.WellFormed ∧ final.Gap (before ++ added) (node :: after) := by
  have opened := wellFormed.moveTo (some node.id)
  have gap := Graph.gap_before split
  cases exchange with
  | renamed => exact ⟨opened.emit _ _, gap.emit opened _ _⟩
  | expansion _ _ _ _ _ copies => exact copies.gap opened gap

/-- The nodes that take the place of a node read only what stands before them. -/
theorem Exchange.spliced {rules : Rules} {submodules : Forest} {graph final : Graph} {node : Node}
    {before added after : List Node} {value : Arg}
    (exchange : Exchange rules submodules graph node added final value)
    (wellFormed : graph.WellFormed) (split : graph.nodes = before ++ node :: after)
    (valid : Graph.Valid graph.nodes) :
    node.op.IsInner ∧ Expansion.Spliced final before added (node :: after) value := by
  have opened := wellFormed.moveTo (some node.id)
  have gap := Graph.gap_before split
  have reads : ∀ input ∈ node.inputs, input ∈ before.map Node.id := by
    intro input isInput
    have closed := valid.closed
    rw [split] at closed
    simpa using (Graph.closed_append.mp closed).2.1 input isInput
  cases exchange with
  | @renamed function standsFor =>
      refine ⟨Op.isInner_of_isCall standsFor.isCall, opened.emit _ _, gap.emit opened _ _, ?_,
        ⟨reads, trivial⟩, ?_⟩
      · intro other member
        obtain rfl := List.mem_singleton.mp member
        exact Op.isInner_of_isCall rfl
      · intro id isRef
        obtain rfl := List.mem_singleton.mp isRef
        simp [Graph.newNode]
  | expansion isCall _ _ _ _ copies =>
      refine ⟨Op.isInner_of_isCall (by rw [isCall]; rfl),
        copies.spliced opened gap (Env.within_empty _) ?_⟩
      intro argument member id isRef
      exact reads id (Instruction.mem_inputs.mpr
        (Or.inl (Argument.mem_refsAll.mpr ⟨argument, member, isRef⟩)))

/-- Dismissing a node leaves what was put before it and the other nodes, with all of them
redirected. -/
theorem nodes_dismiss_map {graph final : Graph} {node : Node} {before added after : List Node}
    {value : Arg} (wellFormed : final.WellFormed)
    (gap : final.Gap (before ++ added) (node :: after)) :
    (dismiss graph final node value).nodes =
      (before ++ added ++ after).map (Node.redirect node.id value) :=
  Graph.nodes_drop_redirect_map (wellFormed.moveTo graph.insertionPoint) gap.nodes_eq value

/-- Dismissing a node leaves what was put before it, with its readers redirected. -/
theorem nodes_dismiss {graph final : Graph} {node : Node} {before added after : List Node}
    {value : Arg} (spliced : Expansion.Spliced final before added (node :: after) value)
    (valid : Graph.Valid (before ++ node :: after)) :
    (dismiss graph final node value).nodes =
      before ++ added ++ after.map (Node.redirect node.id value) := by
  have split := spliced.gap.nodes_eq
  have closed : Graph.Closed ∅ (before ++ added) := by
    rw [Graph.closed_append, Set.empty_union]
    exact ⟨(Graph.closed_append.mp valid.closed).1, spliced.closed⟩
  refine Graph.nodes_drop_redirect (spliced.wellFormed.moveTo graph.insertionPoint) split ?_ value
  intro other member isInput
  rcases closed.mem_of_mem_inputs member isInput with impossible | earlier
  · exact impossible
  · exact spliced.wellFormed.not_mem_before split earlier

theorem wellFormed_dismiss {final : Graph} (wellFormed : final.WellFormed) (graph : Graph)
    (node : Node) (value : Arg) : (dismiss graph final node value).WellFormed :=
  ((wellFormed.moveTo graph.insertionPoint).redirect node.id value).drop node.id

/-! ### Runs -/

/-- The identities of the graph are in order, and the passed nodes are in normal form. -/
structure Settled (rules : Rules) (submodules : Forest) (scan : Scan) : Prop where
  wellFormed : scan.graph.WellFormed
  normal : ∀ node ∈ scan.graph.nodes.take scan.cursor, node.op.IsNormal rules submodules

theorem settled_start {rules : Rules} {submodules : Forest} {graph : Graph}
    (wellFormed : graph.WellFormed) : Settled rules submodules { graph, cursor := 0 } :=
  ⟨wellFormed, fun node member => absurd member (by simp)⟩

/-- Redirecting readers changes no operation, so the passed nodes need nothing of the graph but
distinct identities. -/
theorem Settled.visit {rules : Rules} {submodules : Forest} {scan next : Scan} {node : Node}
    (settled : scan.Settled rules submodules) (found : scan.graph.nodes[scan.cursor]? = some node)
    (visit : Visit rules submodules scan node next) : next.Settled rules submodules := by
  obtain ⟨before, after, split, length⟩ := Graph.exists_split_of_getElem? found
  have passed : scan.graph.nodes.take scan.cursor = before := by
    rw [split, ← length, List.take_left]
  cases visit with
  | passed normal =>
      refine ⟨settled.wellFormed, ?_⟩
      have more : scan.advance.graph.nodes.take scan.advance.cursor = before ++ [node] := by
        show scan.graph.nodes.take (scan.cursor + 1) = _
        rw [List.take_add_one, passed, found]
        rfl
      rw [more]
      intro other member
      rcases List.mem_append.mp member with earlier | here
      · exact settled.normal other (passed ▸ earlier)
      · obtain rfl := List.mem_singleton.mp here
        exact normal
  | @exchanged added final value count exchange normal within =>
      obtain ⟨wellFormed, gap⟩ := exchange.gap settled.wellFormed split
      refine ⟨wellFormed_dismiss wellFormed scan.graph node value, ?_⟩
      have taken : (dismiss scan.graph final node value).nodes.take (scan.cursor + count) =
          (before ++ added.take count).map (Node.redirect node.id value) := by
        rw [nodes_dismiss_map wellFormed gap, ← List.map_take, List.append_assoc, ← length,
          List.take_length_add_append, List.take_append_of_le_length within]
      show ∀ other ∈ (dismiss scan.graph final node value).nodes.take (scan.cursor + count), _
      rw [taken]
      intro other member
      obtain ⟨source, isSource, rfl⟩ := List.mem_map.mp member
      rw [Node.op_redirect]
      rcases List.mem_append.mp isSource with earlier | new
      · exact settled.normal source (passed ▸ earlier)
      · exact normal source new

/-- The graph of a scan is valid, and the passed nodes are in normal form. -/
structure Stage (rules : Rules) (submodules : Forest) (scan : Scan) : Prop
    extends Settled rules submodules scan where
  /-- The graph is valid. -/
  valid : Graph.Valid scan.graph.nodes

theorem Stage.visit {rules : Rules} {submodules : Forest} {scan next : Scan} {node : Node}
    (stage : scan.Stage rules submodules) (found : scan.graph.nodes[scan.cursor]? = some node)
    (visit : Visit rules submodules scan node next) : next.Stage rules submodules := by
  refine ⟨stage.toSettled.visit found visit, ?_⟩
  cases visit with
  | passed => exact stage.valid
  | @exchanged added final value count exchange =>
      obtain ⟨before, after, split, -⟩ := Graph.exists_split_of_getElem? found
      have valid := stage.valid
      obtain ⟨inner, spliced⟩ := exchange.spliced stage.wellFormed split valid
      rw [split] at valid
      show Graph.Valid (dismiss scan.graph final node value).nodes
      rw [nodes_dismiss spliced valid]
      exact valid.replace inner (stage.wellFormed.not_mem_after split) spliced.inner
        spliced.closed spliced.known

/-- A visit leaves the nodes as they are, or puts others in the place of one. -/
theorem Stage.nodes_visit {rules : Rules} {submodules : Forest} {scan next : Scan} {node : Node}
    (stage : scan.Stage rules submodules) (found : scan.graph.nodes[scan.cursor]? = some node)
    (visit : Visit rules submodules scan node next) :
    next.graph.nodes = scan.graph.nodes ∨
      ∃ before added after final value, scan.graph.nodes = before ++ node :: after ∧
        node.op.IsInner ∧ Exchange rules submodules scan.graph node added final value ∧
          Expansion.Spliced final before added (node :: after) value ∧
            next.graph.nodes = before ++ added ++ after.map (Node.redirect node.id value) := by
  cases visit with
  | passed => exact Or.inl rfl
  | @exchanged added final value count exchange =>
      obtain ⟨before, after, split, -⟩ := Graph.exists_split_of_getElem? found
      obtain ⟨inner, spliced⟩ := exchange.spliced stage.wellFormed split stage.valid
      exact Or.inr ⟨before, added, after, final, value, split, inner, exchange, spliced,
        nodes_dismiss spliced (split ▸ stage.valid)⟩

theorem outcome_run_of_none {rules : Rules} {submodules : Forest} {scan : Scan}
    (noneAhead : scan.graph.nodes[scan.cursor]? = none) :
    (scan.run rules submodules).outcome = .ok scan.graph := by
  rw [run]
  split
  · rfl
  · next found => cases noneAhead.symm.trans found

theorem outcome_run_of_some {rules : Rules} {submodules : Forest} {scan : Scan} {node : Node}
    (found : scan.graph.nodes[scan.cursor]? = some node) :
    (scan.run rules submodules).outcome =
      (scan.visit rules submodules node).outcome >>= fun next =>
        (next.run rules submodules).outcome := by
  rw [run]
  split
  · next noneAhead => cases found.symm.trans noneAhead
  · next other foundOther =>
    obtain rfl := Option.some.inj (found.symm.trans foundOther)
    dsimp only
    split
    · next failure => rw [failure]; rfl
    · next success => rw [success]; rfl

/-- What holds at the start and is kept by every visit holds at the end, when no node is ahead. -/
theorem run_induction {rules : Rules} {submodules : Forest} {motive : Scan → Prop}
    (step : ∀ scan node next, motive scan → scan.graph.nodes[scan.cursor]? = some node →
      Visit rules submodules scan node next → motive next)
    {scan : Scan} {graph : Graph} (initial : motive scan)
    (completed : (scan.run rules submodules).outcome = .ok graph) :
    ∃ last, motive last ∧ last.graph = graph ∧ last.graph.nodes[last.cursor]? = none := by
  induction scan using Scan.run.induct rules submodules with
  | case1 scan noneAhead =>
      rw [outcome_run_of_none noneAhead] at completed
      exact ⟨scan, initial, Except.ok.inj completed, noneAhead⟩
  | case2 scan node found _ cause failure =>
      rw [outcome_run_of_some found, failure] at completed
      cases completed
  | case3 scan node found _ next success ih =>
      rw [outcome_run_of_some found, success] at completed
      exact ih (step scan node next initial found (visit_of_eq_ok success)) completed

end Scan

theorem outcome_normalize (rules : Rules) (program : Program) :
    (normalize rules program).outcome =
      (Scan.run rules program.submodules { graph := program.graph, cursor := 0 }).outcome := by
  simp only [normalize, Report.outcome_bind, Report.outcome_note, Report.outcome_pure]
  cases (Scan.run rules program.submodules { graph := program.graph, cursor := 0 }).outcome with
  | error cause => rfl
  | ok graph => rfl

/-- A normalized graph is that of a scan which has passed all nodes, and has whatever every visit
keeps. -/
theorem normalize_induction {rules : Rules} {program : Program} {motive : Scan → Prop}
    (step : ∀ scan node next, motive scan → scan.Stage rules program.submodules →
      scan.graph.nodes[scan.cursor]? = some node →
        scan.Visit rules program.submodules node next → motive next)
    {graph : Graph} (wellFormed : program.graph.WellFormed)
    (valid : Graph.Valid program.graph.nodes)
    (initial : motive { graph := program.graph, cursor := 0 })
    (success : (normalize rules program).outcome = .ok graph) :
    ∃ last : Scan, motive last ∧ last.Stage rules program.submodules ∧ last.graph = graph ∧
      last.graph.nodes[last.cursor]? = none := by
  rw [outcome_normalize] at success
  have start : Scan.Stage rules program.submodules { graph := program.graph, cursor := 0 } :=
    ⟨Scan.settled_start wellFormed, valid⟩
  have kept := fun scan node next (holds : motive scan ∧ scan.Stage rules program.submodules)
      found visit => And.intro (step scan node next holds.1 holds.2 found visit)
        (holds.2.visit found visit)
  obtain ⟨last, ⟨holds, stage⟩, same, noneAhead⟩ := Scan.run_induction kept ⟨initial, start⟩ success
  exact ⟨last, holds, stage, same, noneAhead⟩

end OpGraph
