import OpGraph.Proofs.TracingSteps

/-!
# Tracing by recursion

The tracer keeps a stack of frames.  `walk` is the same trace without a stack: it visits the nodes
of a body in order, calls itself for the body of a child, and goes on with the value that the child
returns.  The stack of the machine is what is left to do when a body returns (`resume`), so the
machine on any stack is the walk followed by the stack.

`loop` is the loop of the machine, cut off after a number of rounds.  As many rounds as a submodule
weighs are enough to trace it.
-/

namespace OpGraph

namespace Report

variable {α β : Type}

theorem ofExcept_bind (outcome : Except Failure α) (next : α → Except Failure β) :
    ofExcept (outcome >>= next) = ofExcept outcome >>= fun value => ofExcept (next value) := by
  cases outcome <;> rfl

end Report

theorem Submodule.weight_descendant_lt {owner child : Submodule} {target : String}
    (found : owner.descendant? target = some child) : child.weight < owner.weight :=
  Nat.lt_of_le_of_lt (Forest.weight_resolve_le found) (Forest.weight_children_lt owner)

namespace Tracing

/-- Trace the pending nodes of a body by recursion.  The result is the graph with the nodes
recorded, and the value that the body returns. -/
def walk (leaf : LeafPolicy) (owner : Submodule) (body : Graph) (scope : String) :
    List Node → Option CallInputs → Env → Graph → Report (Graph × Arg)
  | [], _, _, _ => .fail (.noOutputInTrace owner.className)
  | node :: rest, inputs, env, graph => do
    .note (.visited node.op node.name)
    match node.op with
    | .placeholder =>
      if owner.accepts node then
        match inputs with
        | none =>
          let instruction ← .ofExcept (node.toInstruction.traverse env.value)
          walk leaf owner body scope rest none (env.insert node.id (.ref graph.nextId))
            (graph.emit instruction node.copyHint)
        | some ⟨argument :: later, keyword, supplied⟩ =>
          walk leaf owner body scope rest (some ⟨later, keyword, supplied⟩)
            (env.insert node.id argument) graph
        | some ⟨[], keyword, supplied⟩ =>
          match keyword[node.name]? with
          | some argument =>
            walk leaf owner body scope rest (some ⟨[], keyword, supplied⟩)
              (env.insert node.id argument) graph
          | none => .fail (.arityMismatch owner.className body.placeholders.length supplied)
      else
        .fail (.inputRejected owner.className)
    | .getAttr path =>
      walk leaf owner body scope rest inputs (env.insert node.id (.ref graph.nextId))
        (graph.emit { op := .getAttr (scope ++ path), info := node.info } none)
    | .callFunction _ | .callMethod _ =>
      let instruction ← .ofExcept (node.toInstruction.traverse env.value)
      walk leaf owner body scope rest inputs (env.insert node.id (.ref graph.nextId))
        (graph.emit instruction node.copyHint)
    | .callModule target =>
      let qualified := scope ++ target
      match _found : owner.descendant? target with
      | none => .fail (.unknownSubmodule qualified)
      | some child =>
        let call ← .ofExcept (node.toInstruction.traverse env.value)
        if leaf child qualified then
          walk leaf owner body scope rest inputs (env.insert node.id (.ref graph.nextId))
            (graph.emit { call with op := .callModule qualified } (some target))
        else
          match child.body with
          | none => .fail (.notTraceable child.className)
          | some entered =>
            let (graph, value) ← walk leaf child entered (qualified ++ ".") entered.nodes
              (some ⟨call.args, call.kwargs, call.args.length + call.kwargs.size⟩) ∅ graph
            walk leaf owner body scope rest inputs (env.insert node.id value) graph
    | .output =>
      match node.args with
      | [] => return (graph, .tuple [])
      | result :: _ =>
        let value ← .ofExcept (result.traverse env.value)
        return (graph, value)
termination_by nodes => (owner.weight, nodes.length)
decreasing_by
  all_goals
    first
    | exact Prod.Lex.right _ (Nat.lt_succ_self _)
    | exact Prod.Lex.left _ _ (Submodule.weight_descendant_lt _found)

namespace Machine

/-- What remains to be done after a step. -/
def proceed (leaf : LeafPolicy) : Progress → Report Graph
  | .running machine => machine.run leaf
  | .finished graph => pure graph

theorem run_eq (leaf : LeafPolicy) (machine : Machine) :
    machine.run leaf = machine.step leaf >>= proceed leaf := by
  rw [run]
  show _ = Report.bind _ _
  unfold Report.bind
  split
  · next failure => rw [failure]
  · next graph finished =>
      rw [finished]
      show _ = (⟨_ ++ [], _⟩ : Report Graph)
      rw [List.append_nil]
      rfl
  · next machine running =>
      rw [running]
      rfl

theorem run_cons (leaf : LeafPolicy) {machine : Machine} {node : Node} {rest : List Node}
    (pending : machine.frame.pending = node :: rest) :
    machine.run leaf = .note (.visited node.op node.name) >>= fun _ =>
      .ofExcept (machine.visit leaf rest node) >>= proceed leaf := by
  rw [run_eq, step, pending]
  exact bind_assoc _ _ _

/-- What the waiting callers do with the value that a body returns. -/
def resume (leaf : LeafPolicy) (callers : List (NodeId × Frame)) (returned : Graph × Arg) :
    Report Graph :=
  match callers with
  | [] => pure (returned.1.emit { op := .output, args := [returned.2] } none)
  | (site, caller) :: callers =>
    run leaf ⟨returned.1, { caller with env := caller.env.insert site returned.2 }, callers⟩

theorem proceed_leave (leaf : LeafPolicy) (machine : Machine) (value : Arg) :
    proceed leaf (machine.leave value) = resume leaf machine.callers (machine.graph, value) := by
  unfold leave
  cases machine.callers <;> rfl

theorem proceed_running (leaf : LeafPolicy) (outcome : Except Failure Machine) :
    .ofExcept (.running <$> outcome) >>= proceed leaf = .ofExcept outcome >>= run leaf := by
  cases outcome <;> rfl

theorem recordCopy_run (leaf : LeafPolicy) (machine : Machine) (rest : List Node) (node : Node) :
    .ofExcept (machine.recordCopy rest node) >>= run leaf =
      .ofExcept (node.toInstruction.traverse machine.frame.env.value) >>= fun instruction =>
        run leaf (machine.record rest node.id instruction node.copyHint) := by
  rw [recordCopy, Report.ofExcept_bind, bind_assoc]
  rfl

/-- The machine traces the bodies of a submodule as the recursion does, under all callers. -/
def Agrees (leaf : LeafPolicy) (owner : Submodule) : Prop :=
  ∀ (body : Graph) (scope : String) (nodes : List Node) (inputs : Option CallInputs) (env : Env)
    (graph : Graph) (callers : List (NodeId × Frame)),
    run leaf ⟨graph, ⟨owner, body, nodes, scope, env, inputs⟩, callers⟩ =
      walk leaf owner body scope nodes inputs env graph >>= resume leaf callers

/-- If the machine agrees with the recursion on all descendants, it agrees on their owner: the
induction is on the pending nodes of the body. -/
theorem agrees_of_descendants {leaf : LeafPolicy} {owner : Submodule}
    (descendants : ∀ target child, owner.descendant? target = some child → Agrees leaf child) :
    Agrees leaf owner := by
  intro body scope nodes
  induction nodes with
  | nil =>
      intro inputs env graph callers
      rw [run_eq, walk]
      rfl
  | cons node rest ih =>
      intro inputs env graph callers
      rw [run_cons leaf rfl, walk.eq_def]
      dsimp only
      rw [bind_assoc]
      refine bind_congr fun _ => ?_
      cases isOp : node.op with
      | placeholder =>
          rw [visit, isOp]
          refine (proceed_running leaf _).trans ?_
          unfold visitInput
          dsimp only
          by_cases accepted : owner.accepts node = true
          · rw [if_pos accepted, if_pos accepted]
            match inputs with
            | none =>
                refine (recordCopy_run leaf _ rest node).trans ?_
                rw [bind_assoc]
                exact bind_congr fun instruction => ih _ _ _ _
            | some ⟨argument :: later, keyword, supplied⟩ => exact ih _ _ _ _
            | some ⟨[], keyword, supplied⟩ =>
                cases named : keyword[node.name]? with
                | some argument =>
                    simp only [Frame.takeInput, named]
                    exact ih _ _ _ _
                | none =>
                    simp only [Frame.takeInput, named]
                    rfl
          · rw [if_neg accepted, if_neg accepted]
            rfl
      | getAttr path =>
          rw [visit, isOp]
          exact ih _ _ _ _
      | callFunction _ | callMethod _ =>
          rw [visit, isOp]
          refine (proceed_running leaf _).trans ((recordCopy_run leaf _ rest node).trans ?_)
          rw [bind_assoc]
          exact bind_congr fun instruction => ih _ _ _ _
      | callModule target =>
          rw [visit, isOp]
          refine (proceed_running leaf _).trans ?_
          unfold visitCall
          dsimp only
          cases found : owner.descendant? target with
          | none => rfl
          | some child =>
              dsimp only
              rw [Report.ofExcept_bind, bind_assoc, bind_assoc]
              refine bind_congr fun call => ?_
              by_cases kept : leaf child (scope ++ target) = true
              · rw [if_pos kept, if_pos kept]
                exact ih _ _ _ _
              · rw [if_neg kept, if_neg kept]
                unfold Frame.enter
                cases child.body with
                | none => rfl
                | some entered =>
                    refine (descendants target child found _ _ _ _ _ _ _).trans ?_
                    dsimp only
                    rw [bind_assoc]
                    exact bind_congr fun returned => ih _ _ _ _
      | output =>
          rw [visit, isOp]
          dsimp only
          cases node.args with
          | nil => exact proceed_leave leaf _ _
          | cons result later =>
              dsimp only
              rw [← bind_pure_comp, Report.ofExcept_bind, bind_assoc, bind_assoc]
              exact bind_congr fun value => proceed_leave leaf _ _

/-- The machine agrees with the recursion, by induction on the weight of the submodule. -/
theorem agrees (leaf : LeafPolicy) (owner : Submodule) : Agrees leaf owner := by
  induction weighs : owner.weight using Nat.strong_induction_on generalizing owner with
  | _ weight ih =>
      refine agrees_of_descendants fun target child found => ?_
      exact ih child.weight (weighs ▸ Submodule.weight_descendant_lt found) child rfl

/-- The loop of the tracer, cut off after a number of rounds: nothing if it has not ended then. -/
def loop (leaf : LeafPolicy) : Nat → Machine → Option (Report Graph)
  | 0, _ => none
  | rounds + 1, machine =>
    let stepped := machine.step leaf
    match stepped.outcome with
    | .error cause => some ⟨stepped.journal, .error cause⟩
    | .ok (.finished graph) => some ⟨stepped.journal, .ok graph⟩
    | .ok (.running next) =>
      (loop leaf rounds next).map fun later => ⟨stepped.journal ++ later.journal, later.outcome⟩

/-- The loop ends within as many rounds as the machine weighs. -/
theorem loop_eq_run {leaf : LeafPolicy} {rounds : Nat} {machine : Machine}
    (enough : machine.weight ≤ rounds) : loop leaf rounds machine = some (machine.run leaf) := by
  induction rounds generalizing machine with
  | zero =>
      have positive := machine.frame.weight_pos
      simp only [weight] at enough
      omega
  | succ rounds ih =>
      rw [loop, run]
      dsimp only
      cases stepped : (machine.step leaf).outcome with
      | error cause => rfl
      | ok progress =>
          cases progress with
          | finished graph => rfl
          | running next =>
              have lighter := weight_step stepped
              dsimp only
              rw [ih (by omega)]
              rfl

end Machine

end Tracing

/-- Record the body of a submodule by recursion. -/
def traceByRecursion (leaf : LeafPolicy) (submodule : Submodule) : Report Graph :=
  match submodule.body with
  | none => .fail (.notTraceable submodule.className)
  | some body => do
    let (graph, value) ← Tracing.walk leaf submodule body "" body.nodes none ∅ {}
    return graph.emit { op := .output, args := [value] } none

/-- Record the body of a submodule by a loop that is cut off after a number of rounds. -/
def traceWithin (leaf : LeafPolicy) (rounds : Nat) (submodule : Submodule) :
    Option (Report Graph) :=
  match Tracing.Frame.enter submodule "" none with
  | .error cause => some (.fail cause)
  | .ok frame => Tracing.Machine.loop leaf rounds { graph := {}, frame, callers := [] }

/-- The loop of the tracer ends, within as many rounds as the submodule weighs, and the trace is
that of the recursion: the same events and then the same graph or the same failure. -/
theorem tracing_agrees_with_recursion (leaf : LeafPolicy) (submodule : Submodule) :
    trace leaf submodule = traceByRecursion leaf submodule ∧
      traceWithin leaf submodule.weight submodule = some (traceByRecursion leaf submodule) := by
  cases hasBody : submodule.body with
  | none =>
      have entered : Tracing.Frame.enter submodule "" none =
          .error (.notTraceable submodule.className) := by
        rw [Tracing.Frame.enter, hasBody]
      rw [trace, traceWithin, traceByRecursion, hasBody, entered]
      exact ⟨rfl, rfl⟩
  | some body =>
      let frame : Tracing.Frame := ⟨submodule, body, body.nodes, "", ∅, none⟩
      have entered : Tracing.Frame.enter submodule "" none = .ok frame := by
        rw [Tracing.Frame.enter, hasBody]
      have agrees : Tracing.Machine.run leaf ⟨{}, frame, []⟩ = traceByRecursion leaf submodule := by
        rw [traceByRecursion, hasBody]
        exact Tracing.Machine.agrees leaf submodule body "" body.nodes none ∅ {} []
      constructor
      · rw [trace, entered]
        exact agrees
      · have weighs : Tracing.Machine.weight ⟨{}, frame, []⟩ ≤ submodule.weight :=
          Nat.le_of_eq (Tracing.Frame.weight_enter entered)
        rw [traceWithin, entered]
        exact (Tracing.Machine.loop_eq_run weighs).trans (congrArg some agrees)

end OpGraph
