import Mathlib.Logic.Relation
import OpGraph.Proofs.TraceRecursion

/-!
# What a trace records

`Tracing.Records` tells, for every leaf policy, which nodes a trace adds to the graph while it
visits the nodes of a body.  It has a rule for each kind of node, and the rule for a child that is
entered speaks about the whole body of the child.  So facts about traces are proved by induction on
the rules, and no stack is in the way.  Every trace that succeeds follows them (`exists_records`),
and the machine can be followed along them (`Records.reaches`).
-/

namespace OpGraph

namespace Tracing

/-- A call hands an argument to the input with a name: the next positional one, or the keyword
argument of the name if none is left. -/
inductive CallInputs.Hands (name : String) : CallInputs → Arg → CallInputs → Prop where
  /-- The next positional argument. -/
  | positional {argument : Arg} {later : List Arg} {keyword : Kwargs NodeId} {supplied : Nat} :
      Hands name ⟨argument :: later, keyword, supplied⟩ argument ⟨later, keyword, supplied⟩
  /-- A keyword argument. -/
  | keyword {argument : Arg} {keyword : Kwargs NodeId} {supplied : Nat}
      (named : keyword[name]? = some argument) :
      Hands name ⟨[], keyword, supplied⟩ argument ⟨[], keyword, supplied⟩

/-- Visiting the nodes of a body of `owner` under a scope adds the nodes `added` to `graph`, which
leaves `final`, and the body returns `value`. -/
inductive Records (leaf : LeafPolicy) : Submodule → String → List Node → Option CallInputs → Env →
    Graph → List Node → Graph → Arg → Prop where
  /-- An input of the outermost body is copied. -/
  | input {owner : Submodule} {scope : String} {node : Node} {rest added : List Node} {env : Env}
      {graph final : Graph} {value : Arg} {instruction : Instruction}
      (isInput : node.op = .placeholder) (accepted : owner.accepts node = true)
      (read : node.toInstruction.traverse env.value = .ok instruction)
      (later : Records leaf owner scope rest none (env.insert node.id (.ref graph.nextId))
        (graph.emit instruction node.copyHint) added final value) :
      Records leaf owner scope (node :: rest) none env graph
        (graph.newNode instruction node.copyHint :: added) final value
  /-- An input of a called body is bound to an argument of the call. -/
  | argument {owner : Submodule} {scope : String} {node : Node} {rest added : List Node} {env : Env}
      {graph final : Graph} {value bound : Arg} {inputs left : CallInputs}
      (isInput : node.op = .placeholder) (accepted : owner.accepts node = true)
      (hands : inputs.Hands node.name bound left)
      (later : Records leaf owner scope rest (some left) (env.insert node.id bound) graph added
        final value) :
      Records leaf owner scope (node :: rest) (some inputs) env graph added final value
  /-- An attribute read and a call of a function or a method are recorded. -/
  | inner {owner : Submodule} {scope : String} {node : Node} {rest added : List Node} {env : Env}
      {inputs : Option CallInputs} {graph final : Graph} {value : Arg} {instruction : Instruction}
      (notCall : node.op.isModuleCall = false) (relocated : node.Relocated scope env instruction)
      (later : Records leaf owner scope rest inputs (env.insert node.id (.ref graph.nextId))
        (graph.emit instruction none) added final value) :
      Records leaf owner scope (node :: rest) inputs env graph
        (graph.newNode instruction none :: added) final value
  /-- A child that is a leaf is called by its qualified path. -/
  | kept {owner child : Submodule} {scope target : String} {node : Node} {rest added : List Node}
      {env : Env} {inputs : Option CallInputs} {graph final : Graph} {value : Arg}
      {call : Instruction} (isCall : node.op = .callModule target)
      (found : owner.descendant? target = some child) (isLeaf : leaf child (scope ++ target) = true)
      (read : node.toInstruction.traverse env.value = .ok call)
      (later : Records leaf owner scope rest inputs (env.insert node.id (.ref graph.nextId))
        (graph.emit { call with op := .callModule (scope ++ target) } (some target)) added final
        value) :
      Records leaf owner scope (node :: rest) inputs env graph
        (graph.newNode { call with op := .callModule (scope ++ target) } (some target) :: added)
        final value
  /-- The body of any other child is recorded, under its qualified path. -/
  | entered {owner child : Submodule} {scope target : String} {body : Graph} {node : Node}
      {rest inside added : List Node} {env : Env} {inputs : Option CallInputs}
      {graph middle final : Graph} {returned value : Arg} {call : Instruction}
      (isCall : node.op = .callModule target) (found : owner.descendant? target = some child)
      (noLeaf : leaf child (scope ++ target) = false)
      (read : node.toInstruction.traverse env.value = .ok call) (hasBody : child.body = some body)
      (within : Records leaf child (scope ++ target ++ ".") body.nodes
        (some ⟨call.args, call.kwargs, call.args.length + call.kwargs.size⟩) ∅ graph inside middle
        returned)
      (later : Records leaf owner scope rest inputs (env.insert node.id returned) middle added final
        value) :
      Records leaf owner scope (node :: rest) inputs env graph (inside ++ added) final value
  /-- The first output ends the body. -/
  | output {owner : Submodule} {scope : String} {node : Node} {rest : List Node} {env : Env}
      {inputs : Option CallInputs} {graph : Graph} {value : Arg} (isOutput : node.op = .output)
      (found : (node.args.headD (.tuple [])).traverse env.value = .ok value) :
      Records leaf owner scope (node :: rest) inputs env graph [] graph value

/-- The recursive trace of the bodies of a submodule follows the rules. -/
def FollowsRules (leaf : LeafPolicy) (owner : Submodule) : Prop :=
  ∀ (body : Graph) (scope : String) (nodes : List Node) (inputs : Option CallInputs) (env : Env)
    (graph final : Graph) (value : Arg),
    (walk leaf owner body scope nodes inputs env graph).outcome = .ok (final, value) →
      ∃ added, Records leaf owner scope nodes inputs env graph added final value

/-- If the trace of all descendants follows the rules, that of their owner does: the induction is
on the nodes of the body. -/
theorem followsRules_of_descendants {leaf : LeafPolicy} {owner : Submodule}
    (descendants : ∀ target child, owner.descendant? target = some child →
      FollowsRules leaf child) : FollowsRules leaf owner := by
  intro body scope nodes
  induction nodes with
  | nil =>
      intro inputs env graph final value success
      rw [walk] at success
      cases success
  | cons node rest ih =>
      intro inputs env graph final value success
      rw [walk.eq_def] at success
      simp only [Report.outcome_bind, Report.outcome_note] at success
      obtain ⟨-, -, success⟩ := Outcome.bind_eq_ok.mp success
      cases isOp : node.op with
      | placeholder =>
          simp only [isOp] at success
          split at success
          · next accepted =>
            split at success
            · simp only [Report.outcome_bind, Report.outcome_ofExcept] at success
              obtain ⟨instruction, read, later⟩ := Outcome.bind_eq_ok.mp success
              obtain ⟨added, records⟩ := ih _ _ _ _ _ later
              exact ⟨_, .input isOp accepted read records⟩
            · obtain ⟨added, records⟩ := ih _ _ _ _ _ success
              exact ⟨added, .argument isOp accepted .positional records⟩
            · split at success
              · next named =>
                obtain ⟨added, records⟩ := ih _ _ _ _ _ success
                exact ⟨added, .argument isOp accepted (.keyword named) records⟩
              · cases success
          · cases success
      | getAttr path =>
          simp only [isOp] at success
          obtain ⟨added, records⟩ := ih _ _ _ _ _ success
          exact ⟨_, .inner (by rw [isOp]; rfl) (.read isOp) records⟩
      | callFunction _ | callMethod _ =>
          have noHint : node.copyHint = none := by rw [Node.copyHint, isOp]
          simp only [isOp, noHint, Report.outcome_bind, Report.outcome_ofExcept] at success
          obtain ⟨instruction, read, later⟩ := Outcome.bind_eq_ok.mp success
          obtain ⟨added, records⟩ := ih _ _ _ _ _ later
          exact ⟨_, .inner (by rw [isOp]; rfl) (.call (by rw [isOp]; rfl) read) records⟩
      | callModule target =>
          simp only [isOp] at success
          split at success
          · cases success
          · next child found =>
            simp only [Report.outcome_bind, Report.outcome_ofExcept] at success
            obtain ⟨call, read, success⟩ := Outcome.bind_eq_ok.mp success
            split at success
            · next isLeaf =>
              obtain ⟨added, records⟩ := ih _ _ _ _ _ success
              exact ⟨_, .kept isOp found isLeaf read records⟩
            · next noLeaf =>
              split at success
              · cases success
              · next entered hasBody =>
                simp only [Report.outcome_bind] at success
                obtain ⟨⟨middle, returned⟩, within, later⟩ := Outcome.bind_eq_ok.mp success
                obtain ⟨inside, recordsInside⟩ :=
                  descendants target child found _ _ _ _ _ _ _ _ within
                obtain ⟨added, records⟩ := ih _ _ _ _ _ later
                exact ⟨_, .entered isOp found (Bool.eq_false_of_not_eq_true noLeaf) read hasBody
                  recordsInside records⟩
      | output =>
          simp only [isOp] at success
          split at success
          · next noArgs =>
            obtain ⟨rfl, rfl⟩ := Prod.mk.inj (Except.ok.inj success)
            exact ⟨[], .output isOp (by rw [noArgs]; rfl)⟩
          · next result others args =>
            simp only [Report.outcome_bind, Report.outcome_ofExcept] at success
            obtain ⟨found, read, same⟩ := Outcome.bind_eq_ok.mp success
            obtain ⟨rfl, rfl⟩ := Prod.mk.inj (Except.ok.inj same)
            exact ⟨[], .output isOp (by rw [args]; exact read)⟩

/-- Every recursive trace follows the rules, by induction on the weight of the submodule. -/
theorem followsRules (leaf : LeafPolicy) (owner : Submodule) : FollowsRules leaf owner := by
  induction weighs : owner.weight using Nat.strong_induction_on generalizing owner with
  | _ weight ih =>
      refine followsRules_of_descendants fun target child found => ?_
      exact ih child.weight (weighs ▸ Submodule.weight_descendant_lt found) child rfl

/-! ### The machine -/

namespace Machine

variable {leaf : LeafPolicy} {machine : Machine} {node : Node} {rest : List Node}
variable {instruction : Instruction}

/-- The trace goes on with the next machine. -/
def Step (leaf : LeafPolicy) (machine next : Machine) : Prop :=
  (machine.step leaf).outcome = .ok (.running next)

/-- Reflexive-transitive reachability of machines. -/
def Reaches (leaf : LeafPolicy) : Machine → Machine → Prop :=
  Relation.ReflTransGen (Step leaf)

theorem step_of_visit {next : Machine} (pending : machine.frame.pending = node :: rest)
    (visited : machine.visit leaf rest node = .ok (.running next)) : Step leaf machine next := by
  unfold Step step
  rw [pending]
  exact visited

theorem step_input (pending : machine.frame.pending = node :: rest)
    (isInput : node.op = .placeholder) (accepted : machine.frame.owner.accepts node = true)
    (outermost : machine.frame.inputs = none)
    (read : node.toInstruction.traverse machine.frame.env.value = .ok instruction) :
    Step leaf machine (machine.record rest node.id instruction node.copyHint) := by
  refine step_of_visit pending ?_
  simp only [visit, isInput, visitInput, accepted, if_true, outermost, recordCopy, read]
  rfl

theorem step_argument {inputs left : CallInputs} {value : Arg}
    (pending : machine.frame.pending = node :: rest) (isInput : node.op = .placeholder)
    (accepted : machine.frame.owner.accepts node = true)
    (called : machine.frame.inputs = some inputs) (hands : inputs.Hands node.name value left) :
    Step leaf machine { machine with
      frame := { machine.frame.advance rest node.id value with inputs := some left } } := by
  have taken : machine.frame.takeInput inputs node.name = .ok (value, left) := by
    cases hands with
    | positional => rfl
    | keyword named => simp only [Frame.takeInput, named]
  refine step_of_visit pending ?_
  simp only [visit, isInput, visitInput, accepted, if_true, called, taken]
  rfl

theorem step_inner (pending : machine.frame.pending = node :: rest)
    (notCall : node.op.isModuleCall = false)
    (relocated : node.Relocated machine.frame.scope machine.frame.env instruction) :
    Step leaf machine (machine.record rest node.id instruction none) := by
  refine step_of_visit pending ?_
  cases relocated with
  | read isAttribute => simp only [visit, isAttribute]
  | call isCall found =>
      cases isOp : node.op with
      | callFunction _ | callMethod _ =>
          have noHint : node.copyHint = none := by rw [Node.copyHint, isOp]
          simp only [visit, isOp, recordCopy, found, noHint]
          rfl
      | callModule _ =>
          rw [isOp] at notCall
          cases notCall
      | placeholder | getAttr _ | output =>
          rw [isOp] at isCall
          cases isCall

theorem step_kept {target : String} {child : Submodule}
    (pending : machine.frame.pending = node :: rest) (isCall : node.op = .callModule target)
    (found : machine.frame.owner.descendant? target = some child)
    (isLeaf : leaf child (machine.frame.scope ++ target) = true)
    (read : node.toInstruction.traverse machine.frame.env.value = .ok instruction) :
    Step leaf machine (machine.record rest node.id
      { instruction with op := .callModule (machine.frame.scope ++ target) } (some target)) := by
  refine step_of_visit pending ?_
  simp only [visit, isCall, visitCall, found, read]
  show Progress.running <$> (if leaf child (machine.frame.scope ++ target) = true then _ else _ :
    Except Failure Machine) = _
  rw [if_pos isLeaf]
  rfl

theorem step_entered {target : String} {child : Submodule} {body : Graph}
    (pending : machine.frame.pending = node :: rest) (isCall : node.op = .callModule target)
    (found : machine.frame.owner.descendant? target = some child)
    (noLeaf : leaf child (machine.frame.scope ++ target) = false)
    (read : node.toInstruction.traverse machine.frame.env.value = .ok instruction)
    (hasBody : child.body = some body) :
    Step leaf machine
      { graph := machine.graph
        frame := ⟨child, body, body.nodes, machine.frame.scope ++ target ++ ".", ∅,
          some ⟨instruction.args, instruction.kwargs,
            instruction.args.length + instruction.kwargs.size⟩⟩
        callers := (node.id, { machine.frame with pending := rest }) :: machine.callers } := by
  refine step_of_visit pending ?_
  simp only [visit, isCall, visitCall, found, read]
  show Progress.running <$> (if leaf child (machine.frame.scope ++ target) = true then _ else _ :
    Except Failure Machine) = _
  rw [noLeaf, Frame.enter, hasBody]
  rfl

theorem step_output {value : Arg} {next : Machine} (pending : machine.frame.pending = node :: rest)
    (isOutput : node.op = .output)
    (found : (node.args.headD (.tuple [])).traverse machine.frame.env.value = .ok value)
    (left : machine.leave value = .running next) : Step leaf machine next := by
  refine step_of_visit pending ?_
  cases isArgs : node.args with
  | nil =>
      rw [isArgs] at found
      obtain rfl := Except.ok.inj found
      simp only [visit, isOutput, isArgs, left]
  | cons result others =>
      rw [isArgs] at found
      have read : result.traverse machine.frame.env.value = .ok value := found
      simp only [visit, isOutput, isArgs, read]
      exact congrArg Except.ok left

end Machine

/-- The machine follows the rules: it comes to the caller of a body with the value that the body
returns. -/
theorem Records.reaches {leaf : LeafPolicy} {owner : Submodule} {scope : String}
    {nodes added : List Node} {inputs : Option CallInputs} {env : Env} {graph final : Graph}
    {value : Arg} (records : Records leaf owner scope nodes inputs env graph added final value)
    (body : Graph) (site : NodeId) (caller : Frame) (callers : List (NodeId × Frame)) :
    Machine.Reaches leaf
      ⟨graph, ⟨owner, body, nodes, scope, env, inputs⟩, (site, caller) :: callers⟩
      ⟨final, { caller with env := caller.env.insert site value }, callers⟩ := by
  induction records generalizing body site caller callers with
  | input isInput accepted read _ ih =>
      exact .head (Machine.step_input rfl isInput accepted rfl read) (ih body site caller callers)
  | argument isInput accepted hands _ ih =>
      exact .head (Machine.step_argument rfl isInput accepted rfl hands)
        (ih body site caller callers)
  | inner notCall relocated _ ih =>
      exact .head (Machine.step_inner rfl notCall relocated) (ih body site caller callers)
  | kept isCall found isLeaf read _ ih =>
      exact .head (Machine.step_kept rfl isCall found isLeaf read) (ih body site caller callers)
  | entered isCall found noLeaf read hasBody _ _ ihInside ihLater =>
      refine .head (Machine.step_entered rfl isCall found noLeaf read hasBody) ?_
      exact (ihInside _ _ _ _).trans (ihLater body site caller callers)
  | output isOutput found => exact .single (Machine.step_output rfl isOutput found rfl)

/-- The recorded nodes are put where the graph places new nodes. -/
theorem Records.gap {leaf : LeafPolicy} {owner : Submodule} {scope : String}
    {nodes added before after : List Node} {inputs : Option CallInputs} {env : Env}
    {graph final : Graph} {value : Arg}
    (records : Records leaf owner scope nodes inputs env graph added final value)
    (wellFormed : graph.WellFormed) (gap : graph.Gap before after) :
    final.WellFormed ∧ final.Gap (before ++ added) after := by
  induction records generalizing before with
  | input _ _ _ _ ih | inner _ _ _ ih | kept _ _ _ _ _ ih =>
      have placed := ih (wellFormed.emit _ _) (gap.emit wellFormed _ _)
      rwa [List.append_assoc] at placed
  | argument _ _ _ _ ih => exact ih wellFormed gap
  | entered _ _ _ _ _ _ _ ihInside ihLater =>
      obtain ⟨wellFormed, gap⟩ := ihInside wellFormed gap
      rw [← List.append_assoc]
      exact ihLater wellFormed gap
  | output => exact ⟨wellFormed, by rwa [List.append_nil]⟩

/-- A trace that succeeds records the body of the submodule and then an output. -/
theorem exists_records {leaf : LeafPolicy} {submodule : Submodule} {graph : Graph}
    (success : (trace leaf submodule).outcome = .ok graph) :
    ∃ body added final value, submodule.body = some body ∧
      Records leaf submodule "" body.nodes none ∅ {} added final value ∧ graph.WellFormed ∧
      graph.nodes = added ++ [final.newNode { op := .output, args := [value] } none] := by
  simp only [trace, Report.outcome_bind, Report.outcome_ofExcept] at success
  obtain ⟨frame, entering, completed⟩ := Outcome.bind_eq_ok.mp success
  obtain ⟨body, hasBody, rfl⟩ := Frame.enter_eq_ok entering
  rw [Machine.agrees leaf submodule body "" body.nodes none ∅ {} [], Report.outcome_bind]
    at completed
  obtain ⟨⟨final, value⟩, walked, same⟩ := Outcome.bind_eq_ok.mp completed
  obtain rfl := Except.ok.inj same
  obtain ⟨added, records⟩ := followsRules leaf submodule _ _ _ _ _ _ _ _ walked
  obtain ⟨wellFormed, gap⟩ := records.gap Graph.wellFormed_empty Graph.gap_empty
  refine ⟨body, added, final, value, hasBody, records, wellFormed.emit _ _, ?_⟩
  cases gap with
  | atEnd split point => rw [Graph.nodes_emit_of_none point, split, List.nil_append]

end Tracing

/-- As many rounds as a submodule weighs are enough to trace it. -/
theorem traceWithin_eq {leaf : LeafPolicy} {submodule : Submodule} {rounds : Nat}
    (enough : submodule.weight ≤ rounds) :
    traceWithin leaf rounds submodule = some (trace leaf submodule) := by
  unfold traceWithin trace
  split
  · next entering =>
    rw [entering]
    rfl
  · next frame entering =>
    have weighs : Tracing.Machine.weight ⟨{}, frame, []⟩ ≤ rounds :=
      Nat.le_trans (Nat.le_of_eq (Tracing.Frame.weight_enter entering)) enough
    rw [Tracing.Machine.loop_eq_run weighs, entering]
    rfl

/-- A trace that is found within enough rounds. -/
theorem exists_trace_of_within {leaf : LeafPolicy} {submodule : Submodule} {rounds : Nat}
    {test : Graph → Bool} (enough : submodule.weight ≤ rounds)
    (found : (traceWithin leaf rounds submodule).any
      (fun report => report.outcome.toOption.any test) = true) :
    ∃ graph, (trace leaf submodule).outcome = .ok graph ∧ test graph = true := by
  rw [traceWithin_eq enough, Option.any_some] at found
  cases outcome : (trace leaf submodule).outcome with
  | ok graph =>
      rw [outcome] at found
      exact ⟨graph, rfl, found⟩
  | error cause =>
      rw [outcome] at found
      cases found

end OpGraph
