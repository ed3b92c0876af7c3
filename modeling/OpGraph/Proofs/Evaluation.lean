import OpGraph.Proofs.NormalizationSteps
import OpGraph.Proofs.Reading

/-!
# Evaluation with effects

Nodes are evaluated in their order up to the first output, and every step may change a state.  What
an attribute read, a function, a method or an opaque submodule does is an arbitrary step.  Any other
submodule is called by evaluating its body, with the calls in the body treated in the same way; the
paths in a body are taken from the root of the program.

Evaluation gets stuck where a value is missing.  The steps themselves always succeed, so a graph
that is closed and has enough inputs is evaluated to its end.
-/

namespace OpGraph

/-- A computation that may change a state and may get stuck. -/
abbrev Effect (σ α : Type) := StateT σ (Except Stuck) α

namespace Effect

variable {σ α β : Type}

/-- A computation that reads and changes no state. -/
def ofExcept : Except Stuck α → Effect σ α
  | .ok value => pure value
  | .error stuck => throw stuck

/-- A computation that does not get stuck. -/
def ofTotal (step : StateM σ α) : Effect σ α := fun state => .ok (step.run state)

@[simp]
theorem ofExcept_ok (value : α) : (ofExcept (.ok value) : Effect σ α) = pure value := rfl

/-- Continuations that agree on what a computation leads to make no difference behind it. -/
theorem run_bind_congr {first : Effect σ α} {left right : α → Effect σ β} {state : σ}
    (same : ∀ value next, first.run state = .ok (value, next) →
      (left value).run next = (right value).run next) :
    (first >>= left).run state = (first >>= right).run state := by
  rw [StateT.run_bind, StateT.run_bind]
  cases outcome : first.run state with
  | error stuck => rfl
  | ok result => exact same result.1 result.2 outcome

theorem run_bind_eq_ok {first : Effect σ α} {later : α → Effect σ β} {state : σ} {result : β × σ} :
    (first >>= later).run state = .ok result ↔
      ∃ value next, first.run state = .ok (value, next) ∧ (later value).run next = .ok result := by
  rw [StateT.run_bind, Outcome.bind_eq_ok]
  exact Prod.exists

end Effect

/-- What the steps of a program do. -/
structure Evaluator (σ V : Type) where
  /-- Read the attribute at a path. -/
  readAttribute : String → StateM σ (Argument V)
  /-- Call a function. -/
  callFunction : FunctionPath → Operands V → StateM σ (Argument V)
  /-- Call a method. -/
  callMethod : String → Operands V → StateM σ (Argument V)
  /-- Call the opaque submodule at a path. -/
  callOpaque : String → Operands V → StateM σ (Argument V)

/-- The evaluation of a graph in progress. -/
structure Activation (V : Type) where
  /-- The arguments that are not bound to an input yet. -/
  supply : Operands V
  /-- The values of the evaluated nodes. -/
  values : NodeId → Option (Argument V) := fun _ => none

namespace Activation

variable {σ V : Type}

/-- The value of a node. -/
def look (activation : Activation V) (id : NodeId) : Except Stuck (Argument V) :=
  match activation.values id with
  | some value => .ok value
  | none => .error {}

/-- Give a node a value. -/
def bind (activation : Activation V) (id : NodeId) (value : Argument V) : Activation V :=
  { activation with values := Function.update activation.values id (some value) }

/-- Bind an input to the next positional argument or, when there are none left, to the keyword
argument of its name. -/
def take (activation : Activation V) (node : Node) : Except Stuck (Activation V) :=
  match activation.supply.args with
  | value :: later =>
    .ok { activation.bind node.id value with supply := { activation.supply with args := later } }
  | [] =>
    match activation.supply.kwargs[node.name]? with
    | some value => .ok (activation.bind node.id value)
    | none => .error {}

/-- What a node is evaluated with.  An attribute is read by its path alone. -/
def operands (activation : Activation V) (node : Node) : Except Stuck (Operands V) :=
  match node.op with
  | .getAttr _ => .ok ⟨[], ∅⟩
  | _ => node.toInstruction.read activation.look

variable (meaning : Op → Operands V → Effect σ (Argument V))

/-- Evaluate a node that is no output. -/
def perform (activation : Activation V) (node : Node) : Effect σ (Activation V) :=
  match node.op with
  | .placeholder => .ofExcept (activation.take node)
  | _ => do
    let operands ← .ofExcept (activation.operands node)
    let value ← meaning node.op operands
    return activation.bind node.id value

/-- Evaluate nodes up to the first output, where `finish` says what is made of the output. -/
def run {ρ : Type} (finish : Activation V → Node → Except Stuck ρ) :
    List Node → Activation V → Effect σ ρ
  | [], _ => throw {}
  | node :: rest, activation =>
    if node.op = .output then .ofExcept (finish activation node)
    else do
      let next ← activation.perform meaning node
      run finish rest next

/-- The first argument of an output is the value of a body. -/
def result (activation : Activation V) (node : Node) : Except Stuck (Argument V) :=
  (node.args.headD (.tuple [])).traverse activation.look

/-- All arguments of an output are the results of a program. -/
def results (activation : Activation V) (node : Node) : Except Stuck (Operands V) :=
  node.toInstruction.read activation.look

end Activation

namespace Evaluator

variable {σ V : Type}

/-- The meaning of the operations of a graph whose paths stand under a scope. -/
def meaning (evaluator : Evaluator σ V) (call : String → Operands V → Effect σ (Argument V))
    (scope : String) : Op → Operands V → Effect σ (Argument V)
  | .getAttr path, _ => .ofTotal (evaluator.readAttribute (scope ++ path))
  | .callFunction function, operands => .ofTotal (evaluator.callFunction function operands)
  | .callMethod method, operands => .ofTotal (evaluator.callMethod method operands)
  | .callModule path, operands => call path operands
  | .placeholder, _ => throw {}
  | .output, _ => throw {}

/-- Call a submodule by evaluating its body.  The path of the submodule stands under a scope. -/
def callByBody (evaluator : Evaluator σ V) (forest : Forest) (scope : String) :
    String → Operands V → Effect σ (Argument V) := fun path operands =>
  match _found : forest.find? path with
  | none => throw {}
  | some submodule =>
    match submodule.body with
    | none => throw {}
    | some body =>
      let inner := scope ++ path ++ "."
      Activation.run (evaluator.meaning (callByBody evaluator submodule.children inner) inner)
        Activation.result body.nodes { supply := operands }
termination_by Forest.weight forest
decreasing_by
  exact Nat.lt_of_lt_of_le (Forest.weight_children_lt submodule) (Forest.weight_resolve_le _found)

theorem callByBody_eq {evaluator : Evaluator σ V} {forest : Forest} {scope path : String}
    {submodule : Submodule} {body : Graph} (found : forest.find? path = some submodule)
    (hasBody : submodule.body = some body) (operands : Operands V) :
    evaluator.callByBody forest scope path operands =
      Activation.run
        (evaluator.meaning (evaluator.callByBody submodule.children (scope ++ path ++ "."))
          (scope ++ path ++ "."))
        Activation.result body.nodes { supply := operands } := by
  rw [callByBody]
  split
  · next absent => cases found.symm.trans absent
  · next other foundOther =>
    obtain rfl := Option.some.inj (found.symm.trans foundOther)
    split
    · next noBody => cases hasBody.symm.trans noBody
    · next otherBody hasOther =>
      obtain rfl := Option.some.inj (hasBody.symm.trans hasOther)
      rfl

/-- Call a submodule of a program: by its body, unless its class stays opaque. -/
def call (evaluator : Evaluator σ V) (rules : Rules) (forest : Forest) (path : String)
    (operands : Operands V) : Effect σ (Argument V) :=
  match forest.find? path with
  | none => throw {}
  | some submodule =>
    if rules.opaqueClasses.contains submodule.className then
      .ofTotal (evaluator.callOpaque path operands)
    else
      evaluator.callByBody forest "" path operands

end Evaluator

/-- Evaluate a program from the arguments for its inputs to the arguments of its output. -/
def Program.evaluate {σ V : Type} (rules : Rules) (evaluator : Evaluator σ V) (program : Program)
    (supply : Operands V) : Effect σ (Operands V) :=
  Activation.run (evaluator.meaning (evaluator.call rules program.submodules) "")
    Activation.results program.graph.nodes { supply }

namespace Activation

variable {σ V ρ : Type} {meaning : Op → Operands V → Effect σ (Argument V)}
variable {finish : Activation V → Node → Except Stuck ρ}

theorem look_eq_ok_iff {activation : Activation V} {id : NodeId} {value : Argument V} :
    activation.look id = .ok value ↔ activation.values id = some value := by
  unfold look
  split
  · next found => simp [found]
  · next none => simp [none]

theorem look_bind_self (activation : Activation V) (id : NodeId) (value : Argument V) :
    (activation.bind id value).look id = .ok value :=
  look_eq_ok_iff.mpr (Function.update_self id _ _)

theorem look_bind_of_ne {id other : NodeId} (different : other ≠ id) (activation : Activation V)
    (value : Argument V) : (activation.bind id value).look other = activation.look other := by
  have values : (activation.bind id value).values other = activation.values other :=
    Function.update_of_ne different _ _
  rw [look, look, values]

theorem perform_input {activation : Activation V} {node : Node} (isInput : node.op = .placeholder) :
    activation.perform meaning node = .ofExcept (activation.take node) := by
  rw [perform, isInput]

theorem perform_step {activation : Activation V} {node : Node} (notInput : node.op ≠ .placeholder) :
    activation.perform meaning node = do
      let operands ← .ofExcept (activation.operands node)
      let value ← meaning node.op operands
      return activation.bind node.id value := by
  rw [perform]
  split
  · next isInput => exact absurd isInput notInput
  · rfl

theorem operands_of_isCall {node : Node} (isCall : node.op.isCall = true)
    (activation : Activation V) :
    activation.operands node = node.toInstruction.read activation.look := by
  rw [operands]
  split
  · next isAttribute =>
    rw [isAttribute] at isCall
    cases isCall
  · rfl

theorem run_output {node : Node} {rest : List Node} {activation : Activation V}
    (isOutput : node.op = .output) :
    run meaning finish (node :: rest) activation = .ofExcept (finish activation node) := by
  rw [run, if_pos isOutput]

theorem run_cons {node : Node} {rest : List Node} {activation : Activation V}
    (notOutput : node.op ≠ .output) :
    run meaning finish (node :: rest) activation =
      activation.perform meaning node >>= run meaning finish rest := by
  rw [run, if_neg notOutput]

theorem run_append {before rest : List Node} {activation : Activation V}
    (notOutput : ∀ node ∈ before, node.op ≠ .output) :
    run meaning finish (before ++ rest) activation =
      before.foldlM (perform meaning) activation >>= run meaning finish rest := by
  induction before generalizing activation with
  | nil => rw [List.nil_append, List.foldlM_nil, pure_bind]
  | cons node before ih =>
      rw [List.cons_append, run_cons (notOutput node List.mem_cons_self), List.foldlM_cons,
        bind_assoc]
      congr 1
      funext next
      exact ih fun other member => notOutput other (List.mem_cons_of_mem _ member)

/-! ### What evaluation leaves unchanged -/

theorem take_eq_ok {activation next : Activation V} {node : Node}
    (success : activation.take node = .ok next) :
    ∃ value, next.values = Function.update activation.values node.id (some value) := by
  unfold take at success
  split at success
  · next value later _ =>
    obtain rfl := Except.ok.inj success
    exact ⟨value, rfl⟩
  · split at success
    · next value _ =>
      obtain rfl := Except.ok.inj success
      exact ⟨value, rfl⟩
    · cases success

/-- Evaluating a node gives it a value and no other node another one. -/
theorem values_perform {activation next : Activation V} {node : Node} {state later : σ}
    (success : (activation.perform meaning node).run state = .ok (next, later)) :
    ∃ value, next.values = Function.update activation.values node.id (some value) := by
  by_cases isInput : node.op = .placeholder
  · rw [perform_input isInput] at success
    cases taken : activation.take node with
    | error stuck =>
        rw [taken] at success
        cases success
    | ok taker =>
        rw [taken] at success
        obtain ⟨rfl, -⟩ := Prod.mk.inj (Except.ok.inj success)
        exact take_eq_ok taken
  · rw [perform_step isInput] at success
    obtain ⟨operands, _, -, success⟩ := Effect.run_bind_eq_ok.mp success
    obtain ⟨value, _, -, success⟩ := Effect.run_bind_eq_ok.mp success
    obtain ⟨rfl, -⟩ := Prod.mk.inj (Except.ok.inj success)
    exact ⟨value, rfl⟩

/-- Evaluating nodes gives them values and no other node another one. -/
theorem values_foldlM {nodes : List Node} {activation next : Activation V} {state later : σ}
    (success : (nodes.foldlM (perform meaning) activation).run state = .ok (next, later)) :
    (∀ id ∉ nodes.map Node.id, next.values id = activation.values id) ∧
      ∀ id, id ∈ nodes.map Node.id ∨ (∃ value, activation.values id = some value) →
        ∃ value, next.values id = some value := by
  induction nodes generalizing activation state with
  | nil =>
      obtain ⟨rfl, -⟩ := Prod.mk.inj (Except.ok.inj success)
      exact ⟨fun _ _ => rfl, fun id known => known.resolve_left List.not_mem_nil⟩
  | cons node rest ih =>
      rw [List.foldlM_cons] at success
      obtain ⟨middle, _, performed, success⟩ := Effect.run_bind_eq_ok.mp success
      obtain ⟨value, values⟩ := values_perform performed
      obtain ⟨kept, known⟩ := ih success
      rw [values] at kept known
      constructor
      · intro id absent
        rw [List.map_cons, List.mem_cons, not_or] at absent
        rw [kept id absent.2, Function.update_of_ne absent.1]
      · intro id isKnown
        refine known id ?_
        by_cases same : id = node.id
        · exact Or.inr ⟨value, by rw [same, Function.update_self]⟩
        · rw [Function.update_of_ne same]
          rcases isKnown with member | old
          · exact Or.inl ((List.mem_cons.mp member).resolve_left same)
          · exact Or.inr old

theorem supply_foldlM {nodes : List Node} {activation next : Activation V} {state later : σ}
    (inner : ∀ node ∈ nodes, node.op.IsInner)
    (success : (nodes.foldlM (perform meaning) activation).run state = .ok (next, later)) :
    next.supply = activation.supply := by
  induction nodes generalizing activation state with
  | nil =>
      obtain ⟨rfl, -⟩ := Prod.mk.inj (Except.ok.inj success)
      rfl
  | cons node rest ih =>
      rw [List.foldlM_cons, perform_step (inner node List.mem_cons_self).1] at success
      obtain ⟨middle, _, performed, success⟩ := Effect.run_bind_eq_ok.mp success
      obtain ⟨operands, _, -, performed⟩ := Effect.run_bind_eq_ok.mp performed
      obtain ⟨value, _, -, performed⟩ := Effect.run_bind_eq_ok.mp performed
      obtain ⟨rfl, -⟩ := Prod.mk.inj (Except.ok.inj performed)
      have supply := ih (fun other member => inner other (List.mem_cons_of_mem _ member)) success
      exact supply

/-! ### Other nodes in the place of a node -/

variable {old : NodeId} {new : Arg} {known : Set NodeId} {left right : Activation V}

/-- What is read of a node is read of its replacement, also after another node has got a value. -/
theorem look_bind_single {id : NodeId} (absent : id ∉ known) (isOld : old ∈ known)
    (unread : id ∉ new.refs)
    (told : ∀ i ∈ known, left.look i = (Argument.single old new i).traverse right.look)
    (value : Argument V) :
    ∀ i ∈ insert id known, (left.bind id value).look i =
      (Argument.single old new i).traverse (right.bind id value).look := by
  rintro i (rfl | isKnown)
  · have different : i ≠ old := by
      rintro rfl
      exact absent isOld
    rw [Argument.single, if_neg different, look_bind_self]
    exact (look_bind_self right i value).symm
  · have different : i ≠ id := by
      rintro rfl
      exact absent isKnown
    rw [look_bind_of_ne different, told i isKnown]
    refine Argument.traverse_congr fun target isRef => (look_bind_of_ne ?_ _ _).symm
    rintro rfl
    rw [Argument.single] at isRef
    split at isRef
    · exact unread isRef
    · exact absent (List.mem_singleton.mp isRef ▸ isKnown)

theorem read_redirect {node : Node} (reads : ∀ input ∈ node.inputs, input ∈ known)
    (told : ∀ i ∈ known, left.look i = (Argument.single old new i).traverse right.look) :
    (node.redirect old new).toInstruction.read right.look = node.toInstruction.read left.look := by
  refine (Instruction.read_bind _ _ _).trans (Instruction.read_congr fun input isInput => ?_)
  exact (told input (reads input isInput)).symm

theorem operands_redirect {node : Node} (reads : ∀ input ∈ node.inputs, input ∈ known)
    (told : ∀ i ∈ known, left.look i = (Argument.single old new i).traverse right.look) :
    right.operands (node.redirect old new) = left.operands node := by
  unfold operands
  rw [Node.op_redirect, read_redirect reads told]

/-- Readers of a node that read its replacement instead are evaluated in the same way. -/
theorem run_redirect {nodes : List Node} (closed : Graph.Closed known nodes)
    (supply : left.supply = right.supply) (isOld : old ∈ known)
    (told : ∀ i ∈ known, left.look i = (Argument.single old new i).traverse right.look)
    (absent : ∀ node ∈ nodes, node.id ∉ known ∧ node.id ∉ new.refs)
    (distinct : (nodes.map Node.id).Nodup) :
    run meaning results nodes left =
      run meaning results (nodes.map (Node.redirect old new)) right := by
  induction nodes generalizing known left right with
  | nil => rfl
  | cons node rest ih =>
      obtain ⟨reads, closedRest⟩ := closed
      obtain ⟨notKnown, unread⟩ := absent node List.mem_cons_self
      rw [List.map_cons, List.nodup_cons] at distinct
      have later : ∀ other ∈ rest, other.id ∉ insert node.id known ∧ other.id ∉ new.refs := by
        have apart := fun other member => absent other (List.mem_cons_of_mem _ member)
        have absentRest := Graph.not_mem_insert_of_absent distinct.1
          fun other member => (apart other member).1
        exact fun other member => ⟨absentRest other member, (apart other member).2⟩
      have continued : ∀ (l r : Activation V) value, l.supply = r.supply →
          l.values = (left.bind node.id value).values →
            r.values = (right.bind node.id value).values →
              run meaning results rest l =
                run meaning results (rest.map (Node.redirect old new)) r := by
        intro l r value same values valuesRight
        have lookLeft : l.look = (left.bind node.id value).look := by
          funext id
          rw [look, look, values]
        have lookRight : r.look = (right.bind node.id value).look := by
          funext id
          rw [look, look, valuesRight]
        refine ih closedRest same (Set.mem_insert_of_mem _ isOld) ?_ later distinct.2
        rw [lookLeft, lookRight]
        exact look_bind_single notKnown isOld unread told value
      rw [List.map_cons]
      by_cases isOutput : node.op = .output
      · rw [run_output isOutput, run_output ((Node.op_redirect ..).trans isOutput)]
        exact congrArg Effect.ofExcept (read_redirect reads told).symm
      · rw [run_cons isOutput,
          run_cons (fun same => isOutput ((Node.op_redirect ..).symm.trans same))]
        by_cases isInput : node.op = .placeholder
        · rw [perform_input isInput, perform_input ((Node.op_redirect ..).trans isInput), take,
            take, supply]
          have names : (node.redirect old new).name = node.name := rfl
          cases args : right.supply.args with
          | cons value others => exact continued _ _ value rfl rfl rfl
          | nil =>
              rw [names]
              cases keyword : right.supply.kwargs[node.name]? with
              | some value => exact continued _ _ value supply rfl rfl
              | none => rfl
        · have notInput : (node.redirect old new).op ≠ .placeholder := isInput
          rw [perform_step isInput, perform_step notInput, operands_redirect reads told]
          simp only [bind_assoc, pure_bind]
          congr 1
          funext operands
          congr 1
          funext value
          exact continued _ _ value supply rfl rfl

/-- Exactly the given nodes have values. -/
def Covers (activation : Activation V) (ids : List NodeId) : Prop :=
  ∀ id, (∃ value, activation.values id = some value) ↔ id ∈ ids

theorem covers_foldlM {nodes : List Node} {supply : Operands V} {activation : Activation V}
    {state later : σ}
    (success : (nodes.foldlM (perform meaning) { supply }).run state = .ok (activation, later)) :
    activation.Covers (nodes.map Node.id) := by
  obtain ⟨kept, known⟩ := values_foldlM success
  intro id
  constructor
  · rintro ⟨value, found⟩
    by_contra absent
    rw [kept id absent] at found
    cases found
  · exact fun member => known id (Or.inl member)

/-- Only nodes from the first `created` ones have values. -/
def Counted (activation : Activation V) (created : Nat) : Prop :=
  ∀ id value, activation.values id = some value → id.index < created

theorem Counted.fresh {activation : Activation V} {created : Nat}
    (counted : activation.Counted created) : activation.values ⟨created⟩ = none := by
  cases found : activation.values ⟨created⟩ with
  | none => rfl
  | some value => exact absurd (counted _ value found) (Nat.lt_irrefl _)

theorem Counted.bind {activation : Activation V} {created : Nat}
    (counted : activation.Counted created) (value : Argument V) :
    (activation.bind ⟨created⟩ value).Counted (created + 1) := by
  intro id known found
  by_cases same : id = ⟨created⟩
  · rw [same]
    exact Nat.lt_succ_self _
  · have old : activation.values id = some known :=
      (Function.update_of_ne same _ _).symm.trans found
    exact Nat.lt_succ_of_lt (counted id known old)

theorem Covers.bound {activation : Activation V} {ids : List NodeId}
    (covers : activation.Covers ids) {id : NodeId} (member : id ∈ ids) :
    Argument.Bound activation.look id := by
  obtain ⟨value, found⟩ := (covers id).mpr member
  exact ⟨value, look_eq_ok_iff.mpr found⟩

/-- Nodes that do what a node does, one of which has its value, can take its place. -/
theorem run_splice {final : Graph} {before added after : List Node} {node : Node} {value : Arg}
    {supply : Operands V} (spliced : Expansion.Spliced final before added (node :: after) value)
    (valid : Graph.Valid (before ++ node :: after)) (inner : node.op.IsInner)
    (exchange : ∀ activation : Activation V, activation.Covers (before.map Node.id) →
      activation.perform meaning node = do
        let next ← added.foldlM (perform meaning) activation
        let result ← .ofExcept (value.traverse next.look)
        return activation.bind node.id result)
    (state : σ) :
    (run meaning results (before ++ node :: after) { supply }).run state =
      (run meaning results (before ++ added ++ after.map (Node.redirect node.id value))
        { supply }).run state := by
  have distinct := spliced.wellFormed.distinct
  rw [Graph.ids, spliced.gap.nodes_eq, List.map_append, List.nodup_append, List.map_cons,
    List.nodup_cons] at distinct
  obtain ⟨distinctBefore, ⟨absentAfter, distinctAfter⟩, apart⟩ := distinct
  rw [List.map_append, List.nodup_append] at distinctBefore
  have isBefore : ∀ id ∈ before.map Node.id, id ∈ (before ++ added).map Node.id := by
    intro id earlier
    rw [List.map_append]
    exact List.mem_append_left _ earlier
  rw [List.append_assoc, run_append valid.arranged.not_output, run_append valid.arranged.not_output]
  refine Effect.run_bind_congr fun activation middle ran => ?_
  have covers := covers_foldlM ran
  rw [run_cons inner.2, run_append fun other member => (spliced.inner other member).2,
    exchange activation covers]
  simp only [bind_assoc, pure_bind]
  refine Effect.run_bind_congr fun next later ranAdded => ?_
  obtain ⟨kept, known⟩ := values_foldlM ranAdded
  have readable : ∀ id ∈ value.refs, Argument.Bound next.look id := by
    intro id isRef
    have member := spliced.known id isRef
    rw [List.map_append, List.mem_append] at member
    obtain ⟨found, values⟩ :=
      known id (member.symm.imp_right fun earlier => (covers id).mpr earlier)
    exact ⟨found, look_eq_ok_iff.mpr values⟩
  have read := Argument.traverse_eq_ok_iff.mpr ⟨readable, rfl⟩
  rw [read, Effect.ofExcept_ok, pure_bind]
  obtain ⟨-, -, closed⟩ := Graph.closed_append.mp valid.closed
  rw [Set.empty_union] at closed
  refine congrArg (fun effect => StateT.run effect later) ?_
  refine run_redirect closed ?_ (Set.mem_insert _ _) ?_ ?_ distinctAfter
  · exact (supply_foldlM spliced.inner ranAdded).symm
  · rintro id (rfl | earlier)
    · rw [look_bind_self, Argument.single, if_pos rfl, read]
    · have different : id ≠ node.id := by
        rintro rfl
        exact apart _ (isBefore _ earlier) _ List.mem_cons_self rfl
      have notAdded : id ∉ added.map Node.id := fun member =>
        distinctBefore.2.2 id earlier id member rfl
      rw [look_bind_of_ne different, Argument.single, if_neg different]
      show _ = next.look id
      rw [look, look, kept id notAdded]
  · intro other member
    have isLater : other.id ∈ node.id :: after.map Node.id :=
      List.mem_cons_of_mem _ (List.mem_map_of_mem member)
    constructor
    · rintro (same | earlier)
      · exact absentAfter (same ▸ List.mem_map_of_mem member)
      · exact apart _ (isBefore _ earlier) _ isLater rfl
    · intro isRef
      exact apart _ (spliced.known _ isRef) _ isLater rfl

end Activation

end OpGraph
