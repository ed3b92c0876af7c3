import OpGraph.Proofs.Evaluation

/-!
# A trace does what the body does

An environment tells the values of the nodes of a body in terms of the nodes that have been recorded
(`Env.Tells`).  A recorded node takes the same step as the node that it was made from
(`Node.Relocated.perform`).

The state of the tracer stands for the rest of an evaluation: that of the innermost body, and then
those of the callers that wait for its value (`Tracing.Awaits`).  Each step of the tracer either
records the node that does the next step of that evaluation, or records nothing and the evaluation
takes no step.  So evaluating the recorded nodes and evaluating the bodies are the same.
-/

namespace OpGraph

namespace Activation

variable {V : Type}

/-- What can be read can be read after another node has got a value. -/
theorem traverse_bind_of_none {activation : Activation V} {name : NodeId}
    (fresh : activation.values name = none) (value : Argument V) {argument : Arg}
    {result : Argument V} (read : argument.traverse activation.look = .ok result) :
    argument.traverse (activation.bind name value).look = .ok result := by
  rw [← read]
  refine Argument.traverse_congr fun target isRef => look_bind_of_ne ?_ _ _
  rintro rfl
  obtain ⟨found, bound⟩ := (Argument.traverse_eq_ok_iff.mp read).1 target isRef
  rw [look_eq_ok_iff, fresh] at bound
  cases bound

theorem read_bind_of_none {activation : Activation V} {name : NodeId}
    (fresh : activation.values name = none) (value : Argument V) {instruction : Instruction}
    {operands : Operands V} (read : instruction.read activation.look = .ok operands) :
    instruction.read (activation.bind name value).look = .ok operands := by
  rw [← read]
  refine Instruction.read_congr fun target isInput => look_bind_of_ne ?_ _ _
  rintro rfl
  obtain ⟨found, bound⟩ := Instruction.bound_of_read read target isInput
  rw [look_eq_ok_iff, fresh] at bound
  cases bound

end Activation

namespace Env

variable {V : Type}

/-- The values of the nodes of a body are what the arguments that the environment holds mean
outside. -/
def Tells (env : Env) (inner outer : Activation V) : Prop :=
  ∀ (id : NodeId) (argument : Arg), env[id]? = some argument →
    ∃ value, inner.look id = .ok value ∧ argument.traverse outer.look = .ok value

namespace Tells

variable {env : Env} {inner outer : Activation V}

theorem empty : Tells ∅ inner outer := by
  intro id argument found
  rw [Std.ExtTreeMap.getElem?_empty] at found
  cases found

theorem look_total (told : env.Tells inner outer) {target : NodeId}
    (bound : Argument.Bound env.value target) :
    ∃ value, inner.look target = .ok value ∧
      (Argument.total env.value target).traverse outer.look = .ok value := by
  obtain ⟨argument, found⟩ := bound
  rw [Argument.total_of_eq_ok found]
  exact told target argument (value_eq_ok_iff.mp found)

theorem traverse (told : env.Tells inner outer) {argument result : Arg}
    (found : argument.traverse env.value = .ok result) :
    ∃ value, argument.traverse inner.look = .ok value ∧ result.traverse outer.look = .ok value := by
  obtain ⟨bound, rfl⟩ := Argument.traverse_eq_ok_iff.mp found
  have readable : ∀ target ∈ argument.refs, Argument.Bound inner.look target := by
    intro target isRef
    obtain ⟨value, inside, -⟩ := told.look_total (bound target isRef)
    exact ⟨value, inside⟩
  have read := Argument.traverse_eq_ok_iff.mpr ⟨readable, rfl⟩
  refine ⟨_, read, ?_⟩
  rw [← read, Argument.traverse_bind]
  refine Argument.traverse_congr fun target isRef => ?_
  obtain ⟨value, inside, outside⟩ := told.look_total (bound target isRef)
  rw [inside, outside]

theorem read (told : env.Tells inner outer) {instruction result : Instruction}
    (found : instruction.traverse env.value = .ok result) :
    ∃ operands, instruction.read inner.look = .ok operands ∧
      result.read outer.look = .ok operands := by
  obtain ⟨bound, rfl⟩ := Instruction.traverse_eq_ok_iff.mp found
  have readable : ∀ input ∈ instruction.inputs, Argument.Bound inner.look input := by
    intro input isInput
    obtain ⟨value, inside, -⟩ := told.look_total (bound input isInput)
    exact ⟨value, inside⟩
  obtain ⟨operands, success⟩ := Instruction.exists_read readable
  refine ⟨operands, success, ?_⟩
  rw [← success, Instruction.read_bind]
  refine Instruction.read_congr fun input isInput => ?_
  obtain ⟨value, inside, outside⟩ := told.look_total (bound input isInput)
  rw [inside, outside]

/-- A node of the body and the argument that it is bound to get the same value. -/
theorem insert (told : env.Tells inner outer) {argument : Arg} {value : Argument V}
    (read : argument.traverse outer.look = .ok value) (id : NodeId) :
    Tells (env.insert id argument) (inner.bind id value) outer := by
  intro other bound found
  by_cases same : other = id
  · subst same
    rw [Std.ExtTreeMap.getElem?_insert_self] at found
    obtain rfl := Option.some.inj found
    exact ⟨value, Activation.look_bind_self _ _ _, read⟩
  · rw [getElem?_insert_of_ne same] at found
    rw [Activation.look_bind_of_ne same]
    exact told other bound found

theorem extend (told : env.Tells inner outer) {name : NodeId} (fresh : outer.values name = none)
    (value : Argument V) : env.Tells inner (outer.bind name value) := by
  intro id argument found
  obtain ⟨known, inside, outside⟩ := told id argument found
  exact ⟨known, inside, Activation.traverse_bind_of_none fresh value outside⟩

/-- A node of the body and the node recorded for it get the same value. -/
theorem record (told : env.Tells inner outer) {name : NodeId} (fresh : outer.values name = none)
    (id : NodeId) (value : Argument V) :
    Tells (env.insert id (.ref name)) (inner.bind id value) (outer.bind name value) := by
  have read : (Argument.ref name).traverse (outer.bind name value).look = .ok value :=
    Activation.look_bind_self outer name value
  exact (told.extend fresh value).insert read id

end Tells

end Env

/-- A relocated node takes the step of the original: the paths of the original stand under the
scope, and those of the relocated node do already. -/
theorem Node.Relocated.perform {σ V : Type} {scope : String} {env : Env} {node new : Node}
    {instruction : Instruction} {inner outer : Activation V}
    (relocated : node.Relocated scope env instruction) (told : env.Tells inner outer)
    (notCall : node.op.isModuleCall = false) (same : new.toInstruction = instruction)
    (evaluator : Evaluator σ V) (call callNew : String → Operands V → Effect σ (Argument V))
    (base : String) :
    ∃ step : Effect σ (Argument V),
      inner.perform (evaluator.meaning call (base ++ scope)) node =
          (step >>= fun value => pure (inner.bind node.id value)) ∧
        outer.perform (evaluator.meaning callNew base) new =
          (step >>= fun value => pure (outer.bind new.id value)) := by
  have notInput : new.op ≠ .placeholder := by
    rw [same]
    exact relocated.isInner.1
  cases relocated with
  | @read path isAttribute =>
      refine ⟨.ofTotal (evaluator.readAttribute (base ++ scope ++ path)), ?_, ?_⟩
      · rw [Activation.perform_step (by rw [isAttribute]; exact (Op.isInner_getAttr path).1),
          Activation.operands, isAttribute]
        rfl
      · rw [Activation.perform_step notInput, Activation.operands, same, String.append_assoc]
        rfl
  | @call instruction isCall found =>
      obtain ⟨operands, inside, outside⟩ := told.read found
      have op : new.op = node.op := by
        rw [same]
        exact Instruction.op_traverse found
      have isCallNew : new.op.isCall = true := by rw [op, isCall]
      have meanings : evaluator.meaning callNew base new.op operands =
          evaluator.meaning call (base ++ scope) node.op operands := by
        rw [op]
        cases kind : node.op with
        | placeholder | getAttr | output =>
            rw [kind] at isCall
            cases isCall
        | callModule path =>
            rw [kind] at notCall
            cases notCall
        | callFunction | callMethod => rfl
      refine ⟨evaluator.meaning call (base ++ scope) node.op operands, ?_, ?_⟩
      · rw [Activation.perform_step (Op.isInner_of_isCall isCall).1,
          Activation.operands_of_isCall isCall, inside, Effect.ofExcept_ok, pure_bind]
      · rw [Activation.perform_step notInput, Activation.operands_of_isCall isCallNew, same,
          outside, Effect.ofExcept_ok, pure_bind, ← meanings, same]

/-! ### The evaluation that a machine stands for -/

namespace Tracing

variable {σ V : Type}

/-- The arguments of a call that are left, as those of an instruction. -/
def CallInputs.instruction (inputs : CallInputs) : Instruction :=
  { op := .output, args := inputs.positional, kwargs := inputs.keyword }

namespace Frame

/-- The evaluation of a body has come as far as the frame: its nodes have the values that the
environment holds, and the arguments that are left are those of the frame. -/
structure Held (frame : Frame) (inner outer : Activation V) : Prop where
  told : frame.env.Tells inner outer
  outermost : frame.inputs = none → inner.supply = outer.supply
  called : ∀ inputs, frame.inputs = some inputs →
    inputs.instruction.read outer.look = .ok inner.supply

theorem Held.extend {frame : Frame} {inner outer : Activation V} (held : frame.Held inner outer)
    {name : NodeId} (fresh : outer.values name = none) (value : Argument V) :
    frame.Held inner (outer.bind name value) :=
  ⟨held.told.extend fresh value, held.outermost, fun inputs called =>
    Activation.read_bind_of_none fresh value (held.called inputs called)⟩

/-- The evaluation takes the argument that the tracer takes. -/
theorem Held.takeInput {frame : Frame} {inner outer : Activation V} {node : Node}
    {inputs left : CallInputs} {value : Arg} (held : frame.Held inner outer)
    (called : frame.inputs = some inputs)
    (taken : frame.takeInput inputs node.name = .ok (value, left)) :
    ∃ result supply, inner.take node = .ok { inner.bind node.id result with supply } ∧
      value.traverse outer.look = .ok result ∧ left.instruction.read outer.look = .ok supply := by
  have read := held.called inputs called
  obtain ⟨args, kwargs⟩ := Instruction.read_eq_ok_iff.mp read
  unfold Frame.takeInput at taken
  split at taken
  · next argument others positional =>
    obtain ⟨rfl, rfl⟩ := Prod.mk.inj (Except.ok.inj taken)
    have passed : Argument.traverseAll outer.look (argument :: others) = .ok inner.supply.args :=
      positional ▸ args
    obtain ⟨first, foundFirst, passed⟩ := Outcome.bind_eq_ok.mp passed
    obtain ⟨remaining, foundRemaining, same⟩ := Outcome.bind_eq_ok.mp passed
    refine ⟨first, { inner.supply with args := remaining }, ?_, foundFirst, ?_⟩
    · rw [Activation.take, ← Except.ok.inj same]
    · exact Instruction.read_eq_ok_iff.mpr ⟨foundRemaining, kwargs⟩
  · next positional =>
    split at taken
    · next argument named =>
      obtain ⟨rfl, rfl⟩ := Prod.mk.inj (Except.ok.inj taken)
      have passed : Argument.traverseAll outer.look [] = .ok inner.supply.args := positional ▸ args
      obtain ⟨result, bound, foundResult⟩ := Kwargs.getElem?_of_traverse kwargs named
      refine ⟨result, inner.supply, ?_, foundResult, read⟩
      rw [Activation.take, ← Except.ok.inj passed]
      simp only [bound]
      rfl
    · cases taken

/-- Evaluate the pending nodes of a frame, whose paths stand under `base`. -/
def resume (evaluator : Evaluator σ V) (base : String) (frame : Frame) (inner : Activation V) :
    Effect σ (Argument V) :=
  Activation.run
    (evaluator.meaning (evaluator.callByBody frame.owner.children (base ++ frame.scope))
      (base ++ frame.scope))
    Activation.result frame.pending inner

end Frame

/-- With the value of the innermost body, the callers are evaluated to the end of the outermost
one. -/
inductive Awaits (evaluator : Evaluator σ V) (base : String) (outer : Activation V) :
    List (NodeId × Frame) → (Argument V → Effect σ (Argument V)) → Prop where
  /-- The value of the outermost body is the result. -/
  | done : Awaits evaluator base outer [] pure
  /-- A caller binds the value and is evaluated further. -/
  | caller {site : NodeId} {frame : Frame} {callers : List (NodeId × Frame)} {inner : Activation V}
      {later : Argument V → Effect σ (Argument V)} (held : frame.Held inner outer)
      (bottom : frame.inputs = none → callers = [])
      (rest : Awaits evaluator base outer callers later) :
      Awaits evaluator base outer ((site, frame) :: callers)
        fun value => frame.resume evaluator base (inner.bind site value) >>= later

theorem Awaits.extend {evaluator : Evaluator σ V} {base : String} {outer : Activation V}
    {callers : List (NodeId × Frame)} {later : Argument V → Effect σ (Argument V)}
    (awaits : Awaits evaluator base outer callers later) {name : NodeId}
    (fresh : outer.values name = none) (value : Argument V) :
    Awaits evaluator base (outer.bind name value) callers later := by
  induction awaits with
  | done => exact .done
  | caller held bottom _ ih => exact .caller (held.extend fresh value) bottom ih

namespace Machine

/-- The machine stands for the evaluation of the innermost body followed by `later`; `outer` is the
evaluation of the recorded nodes. -/
structure Tracks (evaluator : Evaluator σ V) (base : String) (machine : Machine)
    (inner outer : Activation V) (later : Argument V → Effect σ (Argument V)) : Prop where
  held : machine.frame.Held inner outer
  bottom : machine.frame.inputs = none → machine.callers = []
  awaits : Awaits evaluator base outer machine.callers later
  noKeywords : outer.supply.kwargs = ∅
  counted : outer.Counted machine.graph.created

namespace Tracks

variable {evaluator : Evaluator σ V} {base : String} {machine : Machine}
variable {inner outer : Activation V} {later : Argument V → Effect σ (Argument V)}

/-- A step that is recorded gives its value to a node of the body and to the recorded node. -/
theorem record (tracks : machine.Tracks evaluator base inner outer later) (rest : List Node)
    (id : NodeId) (instruction : Instruction) (hint : Option String) (value : Argument V) :
    (machine.record rest id instruction hint).Tracks evaluator base (inner.bind id value)
      (outer.bind machine.graph.nextId value) later where
  held := ⟨tracks.held.told.record tracks.counted.fresh id value, tracks.held.outermost,
    fun inputs called =>
      Activation.read_bind_of_none tracks.counted.fresh value (tracks.held.called inputs called)⟩
  bottom := tracks.bottom
  awaits := tracks.awaits.extend tracks.counted.fresh value
  noKeywords := tracks.noKeywords
  counted := tracks.counted.bind value

end Tracks

/-- The nodes that are recorded from here on do what the machine stands for. -/
def Sound (evaluator : Evaluator σ V) (base : String) (final : Graph) (machine : Machine) : Prop :=
  machine.graph.insertionPoint = none →
    ∃ added, final.nodes = machine.graph.nodes ++ added ∧
      ∀ inner outer later call, machine.Tracks evaluator base inner outer later →
        (machine.frame.resume evaluator base inner >>= later) =
          Activation.run (evaluator.meaning call base) Activation.result added outer

section Steps

variable {evaluator : Evaluator σ V} {base : String} {final : Graph} {machine next : Machine}
variable {node : Node} {rest : List Node}

theorem nodes_record (point : machine.graph.insertionPoint = none) {id : NodeId}
    {instruction : Instruction} {hint : Option String} {added : List Node}
    (nodes : final.nodes = (machine.record rest id instruction hint).graph.nodes ++ added) :
    final.nodes = machine.graph.nodes ++ machine.graph.newNode instruction hint :: added := by
  have recorded : (machine.record rest id instruction hint).graph.nodes =
      machine.graph.nodes ++ [machine.graph.newNode instruction hint] :=
    Graph.nodes_emit_of_none point instruction hint
  rw [nodes, recorded, List.append_assoc, List.singleton_append]

theorem resume_cons (pending : machine.frame.pending = node :: rest) (notOutput : node.op ≠ .output)
    (inner : Activation V) :
    machine.frame.resume evaluator base inner =
      inner.perform
          (evaluator.meaning
            (evaluator.callByBody machine.frame.owner.children (base ++ machine.frame.scope))
            (base ++ machine.frame.scope)) node >>=
        Frame.resume evaluator base { machine.frame with pending := rest } := by
  rw [Frame.resume, pending, Activation.run_cons notOutput]
  rfl

theorem sound_recorded {instruction : Instruction} {hint : Option String}
    (pending : machine.frame.pending = node :: rest) (notCall : node.op.isModuleCall = false)
    (relocated : node.Relocated machine.frame.scope machine.frame.env instruction)
    (sound : Sound evaluator base final (machine.record rest node.id instruction hint)) :
    Sound evaluator base final machine := by
  intro point
  obtain ⟨added, nodes, same⟩ := sound point
  refine ⟨_, nodes_record point nodes, fun inner outer later call tracks => ?_⟩
  have notOutput : node.op ≠ .output := relocated.notOutput
  have notOutputNew : (machine.graph.newNode instruction hint).op ≠ .output := relocated.isInner.2
  obtain ⟨step, performed, performedNew⟩ := @Node.Relocated.perform σ V _ _ _
    (machine.graph.newNode instruction hint) _ _ _ relocated tracks.held.told notCall rfl evaluator
    (evaluator.callByBody machine.frame.owner.children (base ++ machine.frame.scope)) call base
  rw [resume_cons pending notOutput, Activation.run_cons notOutputNew, performed, performedNew]
  simp only [bind_assoc, pure_bind]
  congr 1
  funext value
  exact same _ _ later call (tracks.record rest node.id instruction hint value)

theorem sound_input {instruction : Instruction} (pending : machine.frame.pending = node :: rest)
    (isInput : node.op = .placeholder) (outermost : machine.frame.inputs = none)
    (isCopy : instruction.op = .placeholder)
    (sound : Sound evaluator base final (machine.record rest node.id instruction node.copyHint)) :
    Sound evaluator base final machine := by
  intro point
  obtain ⟨added, nodes, same⟩ := sound point
  refine ⟨_, nodes_record point nodes, fun inner outer later call tracks => ?_⟩
  let new := machine.graph.newNode instruction node.copyHint
  have isInputNew : new.op = .placeholder := isCopy
  have supplies := tracks.held.outermost outermost
  have awaits := tracks.awaits
  rw [tracks.bottom outermost] at awaits
  rw [resume_cons pending (Op.ne_output_of_isInput isInput),
    Activation.run_cons (Op.ne_output_of_isInput isInputNew), Activation.perform_input isInput,
    Activation.perform_input isInputNew, Activation.take, Activation.take, supplies]
  cases args : outer.supply.args with
  | nil =>
      -- Without keyword arguments, an input without a positional one is stuck in both.
      have noKeywords := tracks.noKeywords
      simp only [noKeywords, Std.ExtTreeMap.getElem?_empty]
      rfl
  | cons value others =>
      refine same { inner.bind node.id value with supply := { outer.supply with args := others } }
        { outer.bind new.id value with supply := { outer.supply with args := others } } later
        call ?_
      refine ⟨⟨?_, fun _ => rfl, fun inputs called => by cases outermost.symm.trans called⟩,
        tracks.bottom, ?_, tracks.noKeywords, tracks.counted.bind value⟩
      · exact tracks.held.told.record tracks.counted.fresh node.id value
      · show Awaits evaluator base _ machine.callers later
        rw [tracks.bottom outermost]
        cases awaits
        exact .done

theorem sound_argument {inputs left : CallInputs} {value : Arg}
    (pending : machine.frame.pending = node :: rest) (isInput : node.op = .placeholder)
    (called : machine.frame.inputs = some inputs)
    (taken : machine.frame.takeInput inputs node.name = .ok (value, left))
    (sound : Sound evaluator base final { machine with
      frame := { machine.frame.advance rest node.id value with inputs := some left } }) :
    Sound evaluator base final machine := by
  intro point
  obtain ⟨added, nodes, same⟩ := sound point
  refine ⟨added, nodes, fun inner outer later call tracks => ?_⟩
  obtain ⟨result, supply, takes, read, remaining⟩ := tracks.held.takeInput called taken
  rw [resume_cons pending (Op.ne_output_of_isInput isInput), Activation.perform_input isInput,
    takes, Effect.ofExcept_ok, pure_bind]
  refine same { inner.bind node.id result with supply } outer later call
    ⟨⟨?_, fun outermost => absurd outermost (Option.some_ne_none _), ?_⟩,
      fun outermost => absurd outermost (Option.some_ne_none _), tracks.awaits, tracks.noKeywords,
      tracks.counted⟩
  · exact tracks.held.told.insert read node.id
  · rintro _ ⟨⟩
    exact remaining

theorem sound_entered {target : String} {child : Submodule} {instruction : Instruction}
    {callee : Frame} {supplied : Nat} (pending : machine.frame.pending = node :: rest)
    (isCall : node.op = .callModule target)
    (found : machine.frame.owner.descendant? target = some child)
    (read : node.toInstruction.traverse machine.frame.env.value = .ok instruction)
    (entering : Frame.enter child (machine.frame.scope ++ target ++ ".")
      (some ⟨instruction.args, instruction.kwargs, supplied⟩) = .ok callee)
    (sound : Sound evaluator base final { machine with
      frame := callee
      callers := (node.id, { machine.frame with pending := rest }) :: machine.callers }) :
    Sound evaluator base final machine := by
  intro point
  obtain ⟨added, nodes, same⟩ := sound point
  refine ⟨added, nodes, fun inner outer later call tracks => ?_⟩
  obtain ⟨body, hasBody, rfl⟩ := Frame.enter_eq_ok entering
  obtain ⟨operands, inside, outside⟩ := tracks.held.told.read read
  have isStep : node.op.isCall = true := by
    rw [isCall]
    rfl
  have inner' := Op.isInner_of_isCall isStep
  have scopes : base ++ machine.frame.scope ++ target ++ "." =
      base ++ (machine.frame.scope ++ target ++ ".") := by
    simp only [String.append_assoc]
  rw [resume_cons pending inner'.2, Activation.perform_step inner'.1,
    Activation.operands_of_isCall isStep, inside, Effect.ofExcept_ok, pure_bind, isCall]
  show ((evaluator.callByBody machine.frame.owner.children (base ++ machine.frame.scope) target
    operands >>= fun value => pure (inner.bind node.id value)) >>= _) >>= _ = _
  rw [Evaluator.callByBody_eq found hasBody, scopes]
  simp only [bind_assoc, pure_bind]
  refine same { supply := operands } outer
    (fun value => Frame.resume evaluator base { machine.frame with pending := rest }
      (inner.bind node.id value) >>= later) call
    ⟨⟨.empty, fun outermost => absurd outermost (Option.some_ne_none _), ?_⟩,
      fun outermost => absurd outermost (Option.some_ne_none _), ?_, tracks.noKeywords,
      tracks.counted⟩
  · rintro _ ⟨⟩
    exact outside
  · exact .caller ⟨tracks.held.told, tracks.held.outermost, tracks.held.called⟩ tracks.bottom
      tracks.awaits

/-- A body that ends has the value that the tracer leaves it with. -/
theorem resume_output (pending : machine.frame.pending = node :: rest)
    (isOutput : node.op = .output)
    {value : Arg}
    (found : (node.args.headD (.tuple [])).traverse machine.frame.env.value = .ok value)
    {inner outer : Activation V} {later : Argument V → Effect σ (Argument V)}
    (tracks : machine.Tracks evaluator base inner outer later) :
    ∃ result, machine.frame.resume evaluator base inner = pure result ∧
      value.traverse outer.look = .ok result := by
  obtain ⟨result, inside, outside⟩ := tracks.held.told.traverse found
  refine ⟨result, ?_, outside⟩
  rw [Frame.resume, pending, Activation.run_output isOutput, Activation.result, inside,
    Effect.ofExcept_ok]

theorem sound_returned {value : Arg} (pending : machine.frame.pending = node :: rest)
    (isOutput : node.op = .output)
    (found : (node.args.headD (.tuple [])).traverse machine.frame.env.value = .ok value)
    (returned : machine.leave value = .running next) (sound : Sound evaluator base final next) :
    Sound evaluator base final machine := by
  intro point
  unfold leave at returned
  split at returned
  · cases returned
  · next site caller callers waiting =>
    obtain rfl := Progress.running.inj returned
    obtain ⟨added, nodes, same⟩ := sound point
    refine ⟨added, nodes, fun inner outer later call tracks => ?_⟩
    obtain ⟨result, resumed, read⟩ := resume_output pending isOutput found tracks
    have awaits := tracks.awaits
    rw [waiting] at awaits
    cases awaits with
    | @caller _ _ _ suspended later held bottom awaits =>
        rw [resumed, pure_bind]
        refine same (suspended.bind site result) outer later call
          ⟨⟨held.told.insert read site, held.outermost, held.called⟩, bottom, awaits,
            tracks.noKeywords, tracks.counted⟩

theorem sound_finished {value : Arg} (pending : machine.frame.pending = node :: rest)
    (isOutput : node.op = .output)
    (found : (node.args.headD (.tuple [])).traverse machine.frame.env.value = .ok value)
    (finished : machine.leave value = .finished final) : Sound evaluator base final machine := by
  intro point
  unfold leave at finished
  split at finished
  · next noCallers =>
    obtain rfl := Progress.finished.inj finished
    refine ⟨_, Graph.nodes_emit_of_none point _ _, fun inner outer later call tracks => ?_⟩
    obtain ⟨result, resumed, read⟩ := resume_output pending isOutput found tracks
    have awaits := tracks.awaits
    rw [noCallers] at awaits
    cases awaits
    rw [resumed, pure_bind, Activation.run_output rfl]
    exact (congrArg Effect.ofExcept read).symm
  · cases finished

end Steps

theorem sound_run {evaluator : Evaluator σ V} {base : String} {final : Graph} {machine : Machine}
    (completed : (machine.run flattenAll).outcome = .ok final) :
    Sound evaluator base final machine := by
  refine run_induction (fun machine node rest pending visit => ?_)
    (fun machine next node rest pending visit sound => ?_) completed
  · generalize progress : Progress.finished final = reached at visit
    cases visit with
    | left isOutput found => exact sound_finished pending isOutput found progress.symm
    | input | argument | recorded | entered => cases progress
  · generalize progress : Progress.running next = reached at visit
    cases visit with
    | input isInput outermost isCopy =>
        obtain rfl := Progress.running.inj progress
        exact sound_input pending isInput outermost isCopy sound
    | argument isInput called taken =>
        obtain rfl := Progress.running.inj progress
        exact sound_argument pending isInput called taken sound
    | recorded notCall relocated =>
        obtain rfl := Progress.running.inj progress
        exact sound_recorded pending notCall relocated sound
    | entered isCall found read entering =>
        obtain rfl := Progress.running.inj progress
        exact sound_entered pending isCall found read entering sound
    | left isOutput found => exact sound_returned pending isOutput found progress.symm sound

end Machine

end Tracing

/-- Evaluating the trace of a submodule is evaluating its body, from arguments without keywords. -/
theorem run_trace {σ V : Type} {submodule : Submodule} {body traced : Graph}
    (hasBody : submodule.body = some body)
    (success : (trace flattenAll submodule).outcome = .ok traced) (evaluator : Evaluator σ V)
    (call : String → Operands V → Effect σ (Argument V)) (base : String) {supply : Operands V}
    (noKeywords : supply.kwargs = ∅) :
    Activation.run (evaluator.meaning (evaluator.callByBody submodule.children base) base)
        Activation.result body.nodes { supply } =
      Activation.run (evaluator.meaning call base) Activation.result traced.nodes { supply } := by
  simp only [trace, Report.outcome_bind, Report.outcome_ofExcept] at success
  obtain ⟨frame, entering, completed⟩ := Outcome.bind_eq_ok.mp success
  obtain ⟨other, hasOther, rfl⟩ := Tracing.Frame.enter_eq_ok entering
  obtain rfl := Option.some.inj (hasBody.symm.trans hasOther)
  obtain ⟨added, nodes, same⟩ := @Tracing.Machine.sound_run σ V evaluator base _ _ completed rfl
  have recorded : traced.nodes = added := nodes
  have started := same { supply } { supply } pure call
    ⟨⟨.empty, fun _ => rfl, fun _ called => by cases called⟩, fun _ => rfl, .done, noKeywords,
      fun _ _ known => by cases known⟩
  rw [bind_pure, Tracing.Frame.resume, String.append_empty] at started
  rw [recorded]
  exact started

end OpGraph
