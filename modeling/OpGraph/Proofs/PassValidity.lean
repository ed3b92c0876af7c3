import OpGraph.Pipeline
import OpGraph.Proofs.NormalForm
import OpGraph.Proofs.PurificationSteps
import OpGraph.Proofs.ReuseSteps

/-!
# Passes keep graphs valid

Each of the three transformations takes a valid graph to a valid graph.  Normalization and storage
reuse do so at every step, since a node gives way to nodes of its own kind.  Purification builds its
graph from the first node on, and the new nodes mirror the old ones (`Graph.Mirrors`).

A transformation that fails does not blame the shape of a graph: the failures of validation come
from validation only.  So a pipeline of these passes never stops because a graph has become invalid.
-/

namespace OpGraph

/-! ### Purification -/

namespace Graph

/-- Each new node is of the kind of an old one, in the same order; inner nodes may be left out. -/
inductive Mirrors : List Node → List Node → Prop where
  /-- No nodes mirror no nodes. -/
  | nil : Mirrors [] []
  /-- A node is mirrored by one with the same operation. -/
  | same {old new : Node} {olds news : List Node} (op : new.op = old.op)
      (rest : Mirrors olds news) : Mirrors (old :: olds) (new :: news)
  /-- An inner node is mirrored by another inner node. -/
  | inner {old new : Node} {olds news : List Node} (inner : old.op.IsInner)
      (innerNew : new.op.IsInner) (rest : Mirrors olds news) : Mirrors (old :: olds) (new :: news)
  /-- An inner node is left out. -/
  | skip {old : Node} {olds news : List Node} (inner : old.op.IsInner) (rest : Mirrors olds news) :
      Mirrors (old :: olds) news

theorem Mirrors.append {olds news oldsLater newsLater : List Node} (first : Mirrors olds news)
    (later : Mirrors oldsLater newsLater) : Mirrors (olds ++ oldsLater) (news ++ newsLater) := by
  induction first with
  | nil => exact later
  | same op _ ih => exact .same op ih
  | inner inner innerNew _ ih => exact .inner inner innerNew ih
  | skip inner _ ih => exact .skip inner ih

theorem Mirrors.eq_nil {news : List Node} (mirrors : Mirrors [] news) : news = [] := by
  cases mirrors
  rfl

/-- What mirrors an arrangement is arranged as well. -/
theorem Mirrors.arranged {past : Bool} {olds news : List Node} (mirrors : Mirrors olds news)
    (arranged : Arranged past olds) : Arranged past news := by
  induction mirrors generalizing past with
  | nil => exact arranged
  | @same old new olds news op rest ih =>
      rcases old.op.cases_isInner with isInput | isOutput | inner
      · rw [arranged_cons_input isInput] at arranged
        rw [arranged_cons_input (op.trans isInput)]
        exact ⟨arranged.1, ih arranged.2⟩
      · rw [arranged_cons_output isOutput] at arranged
        rw [arranged_cons_output (op.trans isOutput)]
        subst arranged
        exact rest.eq_nil
      · rw [arranged_cons_inner inner] at arranged
        rw [arranged_cons_inner (op ▸ inner)]
        exact ih arranged
  | inner inner innerNew _ ih =>
      rw [arranged_cons_inner inner] at arranged
      rw [arranged_cons_inner innerNew]
      exact ih arranged
  | skip inner _ ih =>
      rw [arranged_cons_inner inner] at arranged
      exact (ih arranged).of_past

end Graph

namespace Purifier

/-- The new graph has come to mirror the visited nodes, and the environment knows only its nodes. -/
structure Stage (visited : List Node) (graph : Graph) (env : Env) : Prop where
  /-- The identities of the new graph are in order. -/
  wellFormed : graph.WellFormed
  /-- New nodes are placed at the end. -/
  atEnd : graph.Gap graph.nodes []
  /-- The nodes of the new graph read only earlier ones. -/
  closed : Graph.Closed ∅ graph.nodes
  /-- The environment refers to nodes of the new graph. -/
  within : env.Within {id | id ∈ graph.ids}
  /-- The new nodes mirror the visited ones. -/
  mirrors : Graph.Mirrors visited graph.nodes

theorem stage_start : Stage [] {} ∅ :=
  ⟨Graph.wellFormed_empty, Graph.gap_empty, trivial, Env.within_empty _, .nil⟩

theorem Stage.nodes_emit {visited : List Node} {graph : Graph} {env : Env}
    (stage : Stage visited graph env) (instruction : Instruction) (hint : Option String) :
    (graph.emit instruction hint).nodes = graph.nodes ++ [graph.newNode instruction hint] := by
  rw [(stage.atEnd.emit stage.wellFormed instruction hint).nodes_eq, List.append_nil]

/-- A new node that reads known nodes is added at the end. -/
theorem Stage.emit {visited : List Node} {graph : Graph} {env nextEnv : Env} {node : Node}
    {instruction : Instruction} {hint : Option String} (stage : Stage visited graph env)
    (reads : ∀ input ∈ instruction.inputs, input ∈ graph.ids)
    (within : ∀ larger : Set NodeId, {id | id ∈ graph.ids} ⊆ larger → graph.nextId ∈ larger →
      nextEnv.Within larger)
    (mirrors : Graph.Mirrors [node] [graph.newNode instruction hint]) :
    Stage (visited ++ [node]) (graph.emit instruction hint) nextEnv := by
  have gap := stage.atEnd.emit stage.wellFormed instruction hint
  have nodes := stage.nodes_emit instruction hint
  have ids : (graph.emit instruction hint).ids = graph.ids ++ [graph.nextId] := by
    rw [Graph.ids, nodes, List.map_append]
    rfl
  refine ⟨stage.wellFormed.emit instruction hint, nodes ▸ gap, ?_, ?_, ?_⟩
  · rw [nodes, Graph.closed_append, Set.empty_union]
    exact ⟨stage.closed, reads, trivial⟩
  · rw [ids]
    refine within _ (fun id member => List.mem_append_left _ member) ?_
    exact List.mem_append_right _ (List.mem_singleton_self _)
  · rw [nodes]
    exact stage.mirrors.append mirrors

theorem Stage.visit {rules : Rules} {visited : List Node} {node : Node} {graph nextGraph : Graph}
    {env nextEnv : Env} (stage : Stage visited graph env)
    (visit : Visit rules node graph env nextGraph nextEnv) :
    Stage (visited ++ [node]) nextGraph nextEnv := by
  have fresh : ∀ larger : Set NodeId, graph.nextId ∈ larger →
      ∀ id ∈ (Argument.ref graph.nextId).refs, id ∈ larger := by
    intro larger isNew id isRef
    obtain rfl := List.mem_singleton.mp isRef
    exact isNew
  cases visit with
  | @copied instruction noCall found =>
      refine stage.emit (stage.within.inputs_traverse found) ?_ (.same ?_ .nil)
      · exact fun larger subset isNew => stage.within.insert subset (fresh larger isNew) node.id
      · exact Instruction.op_traverse found
  | folded isCall _ _ _ =>
      refine ⟨stage.wellFormed, stage.atEnd, stage.closed, ?_, ?_⟩
      · exact stage.within.insert subset_rfl (fun _ isRef => absurd isRef List.not_mem_nil) node.id
      · have mirrors := stage.mirrors.append (.skip (Op.isInner_of_isCall isCall) .nil)
        rw [List.append_nil] at mirrors
        exact mirrors
  | @called info form args kwargs isCall hasInfo suits foundArgs foundKwargs =>
      have found := traverse_sourceCall info foundArgs foundKwargs
      refine stage.emit (stage.within.inputs_traverse found) ?_ (.inner ?_ ?_ .nil)
      · intro larger subset isNew
        have rebound := stage.within.rebindAll subset (fresh larger isNew) form.changed
        exact rebound.insert subset_rfl (fresh larger isNew) node.id
      · exact Op.isInner_of_isCall isCall
      · exact Op.isInner_of_isCall (suits.isCall isCall)

end Purifier

/-- A graph that has been purified is that of a purification which has visited all nodes. -/
theorem stage_purify {rules : Rules} {program : Program} {graph : Graph} {tally : Tally}
    (success : (purify rules program).outcome = .ok (graph, tally)) :
    ∃ env, Purifier.Stage program.graph.nodes graph env :=
  purify_induction (fun _ _ _ _ _ _ _ _ stage visit => Purifier.Stage.visit stage visit)
    Purifier.stage_start success

theorem valid_purify {rules : Rules} {program : Program} {graph : Graph} {tally : Tally}
    (valid : Graph.Valid program.graph.nodes)
    (success : (purify rules program).outcome = .ok (graph, tally)) :
    graph.WellFormed ∧ Graph.Valid graph.nodes := by
  obtain ⟨env, stage⟩ := stage_purify success
  exact ⟨stage.wellFormed, stage.closed, stage.mirrors.arranged valid.arranged⟩

/-! ### Normalization and storage reuse -/

theorem valid_normalize {rules : Rules} {program : Program} {graph : Graph}
    (wellFormed : program.graph.WellFormed) (valid : Graph.Valid program.graph.nodes)
    (success : (normalize rules program).outcome = .ok graph) :
    graph.WellFormed ∧ Graph.Valid graph.nodes := by
  obtain ⟨last, -, stage, rfl, -⟩ := normalize_induction
    (fun _ _ _ _ _ _ _ => trivial) wellFormed valid trivial success
  exact ⟨stage.wellFormed, stage.valid⟩

theorem valid_reuseStorage {rules : Rules} {accepts : Signatures} {program : Program}
    {graph : Graph} {calls : List ReusedCall} (wellFormed : program.graph.WellFormed)
    (valid : Graph.Valid program.graph.nodes)
    (success : reuseStorage rules accepts program = .ok (graph, calls)) :
    graph.WellFormed ∧ Graph.Valid graph.nodes := by
  obtain ⟨walk, -, stage, rfl⟩ := reuseStorage_induction
    (fun _ _ _ _ _ _ _ _ _ _ => trivial) wellFormed valid (fun _ _ => trivial) success
  exact ⟨stage.wellFormed, stage.valid⟩

/-! ### Causes of failure -/

namespace Failure

/-- The failure says that a graph has not the shape of a valid one. -/
def isStructural : Failure → Bool
  | forwardReference _ _ => true
  | missingOutput => true
  | duplicateOutput => true
  | outputNotLast _ => true
  | placeholderOutOfOrder _ => true
  | _ => false

end Failure

/-- If the computation fails, it does not blame the shape of a graph. -/
def SparesShape {α : Type} (outcome : Except Failure α) : Prop :=
  ∀ cause, outcome = .error cause → cause.isStructural = false

namespace SparesShape

variable {α β : Type}

theorem ok (value : α) : SparesShape (.ok value) := fun _ failure => by cases failure

theorem error {cause : Failure} (spares : cause.isStructural = false) :
    SparesShape (.error cause : Except Failure α) := by
  intro other failure
  obtain rfl := Except.error.inj failure
  exact spares

theorem bind {first : Except Failure α} {next : α → Except Failure β} (spares : SparesShape first)
    (sparesNext : ∀ value, SparesShape (next value)) : SparesShape (first >>= next) := by
  cases first with
  | error cause => exact error (spares cause rfl)
  | ok value => exact sparesNext value

theorem map {first : Except Failure α} (spares : SparesShape first) (change : α → β) :
    SparesShape (change <$> first) := by
  cases first with
  | error cause => exact error (spares cause rfl)
  | ok value => exact ok (change value)

theorem mapM {compute : α → Except Failure β} {items : List α}
    (each : ∀ item ∈ items, SparesShape (compute item)) : SparesShape (items.mapM compute) := by
  induction items with
  | nil => exact ok []
  | cons item rest ih =>
      rw [List.mapM_cons]
      refine bind (each item List.mem_cons_self) fun first => bind (ih ?_) fun others => ok _
      exact fun other member => each other (List.mem_cons_of_mem _ member)

theorem foldlM {step : β → α → Except Failure β}
    (each : ∀ state item, SparesShape (step state item))
    (items : List α) (start : β) : SparesShape (items.foldlM step start) := by
  induction items generalizing start with
  | nil => exact ok start
  | cons item rest ih =>
      rw [List.foldlM_cons]
      exact bind (each start item) ih

theorem foldlM_report {step : β → α → Report β}
    (each : ∀ state item, SparesShape (step state item).outcome) (items : List α) (start : β) :
    SparesShape (items.foldlM step start).outcome := by
  induction items generalizing start with
  | nil => exact ok start
  | cons item rest ih =>
      rw [List.foldlM_cons, Report.outcome_bind]
      exact bind (each start item) ih

/-- A substitution fails only as one of its images does. -/
theorem traverse {image : NodeId → Except Failure Arg}
    (each : ∀ target, SparesShape (image target)) (argument : Arg) :
    SparesShape (argument.traverse image) := by
  induction argument using Argument.induction with
  | ref target => exact each target
  | literal value => exact ok _
  | tuple items ih =>
      rw [Argument.traverse, Argument.traverseAll_eq_mapM]
      exact map (mapM ih) _

theorem traverseAll {image : NodeId → Except Failure Arg}
    (each : ∀ target, SparesShape (image target)) (arguments : List Arg) :
    SparesShape (Argument.traverseAll image arguments) := by
  rw [Argument.traverseAll_eq_mapM]
  exact mapM fun argument _ => traverse each argument

theorem traverseKwargs {image : NodeId → Except Failure Arg}
    (each : ∀ target, SparesShape (image target)) (kwargs : Kwargs NodeId) :
    SparesShape (Kwargs.traverse image kwargs) :=
  bind (mapM fun entry _ => bind (traverse each entry.2) fun _ => ok _) fun _ => ok _

theorem traverseInstruction {image : NodeId → Except Failure Arg}
    (each : ∀ target, SparesShape (image target)) (instruction : Instruction) :
    SparesShape (instruction.traverse image) :=
  bind (traverseAll each _) fun _ => bind (traverseKwargs each _) fun _ => ok _

theorem value (env : Env) (id : NodeId) : SparesShape (env.value id) := by
  unfold Env.value
  split
  · exact ok _
  · exact error rfl

theorem getNode (graph : Graph) (id : NodeId) : SparesShape (graph.get id) := by
  unfold Graph.get
  split
  · exact ok _
  · exact error rfl

theorem erase (graph : Graph) (id : NodeId) : SparesShape (graph.erase id) := by
  refine bind (getNode graph id) fun node => ?_
  split
  · exact ok _
  · exact error rfl

theorem getSubmodule (submodules : Forest) (path : String) : SparesShape (submodules.get path) := by
  unfold Forest.get
  split
  · exact ok _
  · exact error rfl

theorem infoFor (node : Node) (field : InfoField) : SparesShape (node.infoFor field) := by
  unfold Node.infoFor
  split
  · exact ok _
  · exact error rfl

theorem shortName (node : Node) (submodules : Forest) :
    SparesShape (node.shortName submodules) := by
  unfold Node.shortName
  split
  case h_3 => exact map (getSubmodule submodules _) _
  all_goals exact ok _

theorem longName (node : Node) (rules : Rules) (submodules : Forest) :
    SparesShape (node.longName rules submodules) := by
  unfold Node.longName
  split
  · exact ok _
  · exact map (getSubmodule submodules _) _
  · exact shortName node submodules

/-! ### Transformations that fail -/

theorem expandCall (scan : Scan) (node : Node) (path : String) (submodule : Submodule) :
    SparesShape (scan.expandCall node path submodule).outcome := by
  simp only [Scan.expandCall, Graph.insertingBefore, Report.outcome_bind, Report.outcome_ofExcept]
  refine bind ?_ fun value => bind (erase _ _) fun _ => ok _
  -- Whatever goes wrong inside an expansion is told as a failure to expand.
  have enclosed : ∀ report : Report Arg,
      SparesShape (Expansion.enclose submodule.className report).outcome := by
    intro report
    unfold Expansion.enclose
    split
    · next success =>
      rw [success]
      exact ok _
    · exact error rfl
  unfold expand
  split
  · exact enclosed _
  · exact enclosed _

theorem visit (rules : Rules) (submodules : Forest) (scan : Scan) (node : Node) :
    SparesShape (scan.visit rules submodules node).outcome := by
  unfold Scan.visit
  split
  · split
    · exact ok _
    · exact ok _
  · dsimp only
    split
    · exact ok _
    · exact ok _
  · simp only [Report.outcome_bind, Report.outcome_ofExcept]
    refine bind (getSubmodule _ _) fun submodule => ?_
    split
    · exact ok _
    · exact expandCall _ _ _ _
  · exact ok _

theorem run (rules : Rules) (submodules : Forest) (scan : Scan) :
    SparesShape (scan.run rules submodules).outcome := by
  induction scan using Scan.run.induct rules submodules with
  | case1 scan noneAhead =>
      rw [Scan.outcome_run_of_none noneAhead]
      exact ok _
  | case2 scan node found _ cause failure =>
      rw [Scan.outcome_run_of_some found, failure]
      exact error (visit rules submodules scan node cause failure)
  | case3 scan node found _ next success ih =>
      rw [Scan.outcome_run_of_some found, success]
      exact ih

theorem normalize (rules : Rules) (program : Program) :
    SparesShape (OpGraph.normalize rules program).outcome := by
  simp only [OpGraph.normalize, Report.outcome_bind]
  exact bind (ok ()) fun _ => bind (run _ _ _) fun _ => ok _

theorem ofProgram (rules : Rules) (program : Program) :
    SparesShape (Storage.ofProgram rules program) := by
  refine foldlM (fun storage node => ?_) _ _
  unfold Storage.place
  split
  · next isCall =>
    refine bind (bind ?_ fun isView => ?_) fun shared => ?_
    · rw [Node.isView, if_pos isCall]
      exact map (shortName _ _) _
    · split
      · exact ok _
      · exact ok _
    · split
      · exact ok _
      · exact ok _
  · exact ok _

theorem ofOperator (rules : Rules) (submodules : Forest) (node : Node) :
    SparesShape (PureForm.ofOperator rules submodules node).outcome := by
  unfold PureForm.ofOperator
  split
  · split
    · split
      · simp only [Report.outcome_bind, Report.outcome_ofExcept]
        exact bind (ok ()) fun _ => bind (longName _ _ _) fun _ => ok _
      · exact ok _
    · exact ok _
  · exact ok _

theorem ofCall (rules : Rules) (submodules : Forest) (node : Node) (info : ValueInfo) :
    SparesShape (PureForm.ofCall rules submodules node info).outcome := by
  unfold PureForm.ofCall
  split
  · unfold PureForm.ofTensor
    split
    · exact ok _
    · exact ok _
    · split
      · exact ok _
      · simp only [PureForm.ofRemaining, Report.outcome_bind]
        refine bind (ofOperator _ _ _) fun form => ?_
        split
        · simp only [Report.outcome_bind, Report.outcome_ofExcept]
          exact bind (longName _ _ _) fun _ => ok _
        · exact ok _
  · unfold PureForm.ofOther
    split
    · simp only [Report.outcome_bind, Report.outcome_ofExcept]
      exact bind (longName _ _ _) fun _ => ok _
    · exact ok _

theorem attributeRead (graph : Graph) (node : Node) :
    SparesShape (AttributeRead.ofCall graph node).outcome := by
  unfold AttributeRead.ofCall
  split
  · exact ok _
  · split
    · simp only [Report.outcome_bind, Report.outcome_ofExcept]
      refine bind (getNode _ _) fun source => bind (infoFor _ _) fun info => ?_
      split
      · exact ok _
      · exact error rfl
    · exact ok _

theorem emitCall (purifier : Purifier) (node : Node) (info : ValueInfo) (form : PureForm) :
    SparesShape (purifier.emitCall node info form).outcome := by
  have emitted : ∀ start : Purifier, SparesShape ((form.changed.foldlM
      (Purifier.rebind node.name (purifier.graph.freshName form.op.baseName)
        (.ref purifier.graph.nextId)) start >>= fun rebound =>
          pure (rebound.bind node.id (.ref purifier.graph.nextId)) : Report Purifier)).outcome := by
    intro start
    rw [Report.outcome_bind, Purifier.outcome_foldlM_rebind]
    exact ok _
  simp only [Purifier.emitCall, Report.outcome_bind, Report.outcome_ofExcept]
  refine bind (traverseAll (value _) _) fun args => ?_
  refine bind (traverseKwargs (value _) _) fun kwargs => ?_
  split
  · rw [Report.outcome_bind]
    exact bind (ok ()) fun _ => emitted _
  · exact emitted _

theorem visitCall (rules : Rules) (program : Program) (purifier : Purifier) (node : Node) :
    SparesShape (purifier.visitCall rules program node).outcome := by
  have counted : ∀ (start : Purifier) (info : ValueInfo) (form : PureForm),
      SparesShape (if info.isTensor then start.emitCall node info form
        else do
          let name ← Report.ofExcept (node.longName rules program.submodules)
          (start.count [⟨.nontensor, name⟩]).emitCall node info form).outcome := by
    intro start info form
    split
    · exact emitCall _ _ _ _
    · rw [Report.outcome_bind]
      exact bind (longName _ _ _) fun _ => emitCall _ _ _ _
  simp only [Purifier.visitCall, Report.outcome_bind, Report.outcome_ofExcept]
  refine bind (infoFor _ _) fun info => bind (ofCall _ _ _ _) fun form => ?_
  split
  · rw [Report.outcome_bind]
    refine bind (attributeRead _ _) fun read => ?_
    split
    · exact ok _
    · exact counted _ _ _
  · exact counted _ _ _

theorem purify (rules : Rules) (program : Program) :
    SparesShape (OpGraph.purify rules program).outcome := by
  simp only [OpGraph.purify, Report.outcome_bind]
  refine bind (foldlM_report (fun purifier node => ?_) _ _) fun _ => bind (ok ()) fun _ => ok _
  unfold Purifier.visit
  split
  · exact visitCall _ _ _ _
  · exact bind (bind (traverseInstruction (value _) _) fun _ => ok _) fun _ => ok _

end SparesShape

/-! ### Pipelines -/

/-- The program is left with a valid graph, and a failure does not blame the shape of a graph. -/
structure Transition.Sound (transition : Transition) : Prop where
  wellFormed : transition.program.graph.WellFormed
  valid : Graph.Valid transition.program.graph.nodes
  spares : SparesShape transition.report.outcome

namespace Pass

/-- The passes that normalize, reuse storage or purify, under any rules. -/
inductive IsTransformation : Pass → Prop where
  | normalization (rules : Rules) : IsTransformation (.normalization rules)
  | storageReuse (rules : Rules) (accepts : Signatures) :
      IsTransformation (.storageReuse rules accepts)
  | purification (rules : Rules) : IsTransformation (.purification rules)

theorem sound_commit {program : Program} {tally : Tally} {report : Report (Graph × Tally)}
    (wellFormed : program.graph.WellFormed) (valid : Graph.Valid program.graph.nodes)
    (spares : SparesShape report.outcome)
    (result : ∀ graph changed, report.outcome = .ok (graph, changed) →
      graph.WellFormed ∧ Graph.Valid graph.nodes) : (commit program tally report).Sound := by
  unfold commit
  split
  · next graph changed success =>
    obtain ⟨wellFormedResult, validResult⟩ := result graph changed success
    exact ⟨wellFormedResult, validResult, SparesShape.ok ()⟩
  · next cause failure => exact ⟨wellFormed, valid, SparesShape.error (spares cause failure)⟩

theorem IsTransformation.sound_run {pass : Pass} (isTransformation : pass.IsTransformation)
    {program : Program} (wellFormed : program.graph.WellFormed)
    (valid : Graph.Valid program.graph.nodes) (tally : Tally) :
    (pass.run program tally).Sound := by
  cases isTransformation with
  | normalization rules =>
      refine sound_commit wellFormed valid ?_ fun graph changed success => ?_
      · rw [Report.outcome_bind]
        exact .bind (.normalize rules program) fun _ => .ok _
      · rw [Report.outcome_bind] at success
        obtain ⟨result, normalized, same⟩ := Outcome.bind_eq_ok.mp success
        obtain ⟨rfl, -⟩ := Prod.mk.inj (Except.ok.inj same)
        exact valid_normalize wellFormed valid normalized
  | storageReuse rules accepts =>
      rcases reuseInPlace_cases wellFormed rules accepts with
        ⟨cause, failure, left⟩ | ⟨graph, calls, -, left, success⟩
      · have spares := SparesShape.ofProgram rules program cause failure
        simp only [Pass.storageReuse, left]
        exact ⟨wellFormed, valid, SparesShape.error spares⟩
      · obtain ⟨wellFormedResult, validResult⟩ := valid_reuseStorage wellFormed valid success
        simp only [Pass.storageReuse, left]
        exact ⟨wellFormedResult, validResult, SparesShape.ok ()⟩
  | purification rules =>
      refine sound_commit wellFormed valid ?_ fun graph changed success => ?_
      · rw [Report.outcome_bind]
        exact .bind (.purify rules program) fun _ => .ok _
      · rw [Report.outcome_bind] at success
        obtain ⟨result, purified, same⟩ := Outcome.bind_eq_ok.mp success
        obtain ⟨rfl, -⟩ := Prod.mk.inj (Except.ok.inj same)
        exact valid_purify valid purified

/-- A transformation changes nothing of a program but its graph. -/
theorem IsTransformation.submodules_run {pass : Pass} (isTransformation : pass.IsTransformation)
    (program : Program) (tally : Tally) :
    (pass.run program tally).program.submodules = program.submodules := by
  have commits (report : Report (Graph × Tally)) :
      (commit program tally report).program.submodules = program.submodules := by
    unfold commit
    split <;> rfl
  cases isTransformation with
  | normalization => exact commits _
  | storageReuse => rfl
  | purification => exact commits _

end Pass

theorem Pipeline.submodules_runFrom {pipeline : Pipeline}
    (each : ∀ pass ∈ pipeline, pass.IsTransformation) (program : Program) (tally : Tally) :
    (pipeline.runFrom program tally).program.submodules = program.submodules := by
  induction pipeline generalizing program tally with
  | nil => rfl
  | cons pass later ih =>
      have here := (each pass List.mem_cons_self).submodules_run program tally
      rw [runFrom]
      dsimp only
      split
      · exact here
      · exact here
      · exact (ih (fun other member => each other (List.mem_cons_of_mem _ member)) _ _).trans here

/-- Passes that succeed hand over what they leave to the passes after them. -/
theorem Pipeline.runFrom_append {first : Pipeline} {program : Program} {tally : Tally}
    (success : (first.runFrom program tally).report.outcome = .ok ()) (later : Pipeline) :
    ((first ++ later).runFrom program tally).program =
        (later.runFrom (first.runFrom program tally).program
          (first.runFrom program tally).tally).program ∧
      ((first ++ later).runFrom program tally).report.outcome =
        (later.runFrom (first.runFrom program tally).program
          (first.runFrom program tally).tally).report.outcome := by
  induction first generalizing program tally with
  | nil => exact ⟨rfl, rfl⟩
  | cons pass rest ih =>
      rw [List.cons_append, runFrom]
      rw [runFrom] at success ⊢
      dsimp only at success ⊢
      split at success
      · cases success
      · cases success
      · exact ih success

/-- A normalization at the start hands over the normalized graph. -/
theorem Pipeline.runFrom_cons_normalization {rules : Rules} {program : Program} {graph : Graph}
    (success : (normalize rules program).outcome = .ok graph) (valid : graph.validate = .ok ())
    (later : Pipeline) (tally : Tally) :
    (runFrom (.normalization rules :: later) program tally).report.outcome =
        (later.runFrom { program with graph } tally).report.outcome ∧
      (runFrom (.normalization rules :: later) program tally).program =
        (later.runFrom { program with graph } tally).program := by
  have normalized : (normalize rules program >>= fun graph =>
      (pure (graph, tally) : Report (Graph × Tally))).outcome = .ok (graph, tally) := by
    rw [Report.outcome_bind, success]
    rfl
  simp only [runFrom, Pass.normalization, Pass.commit, normalized, valid, and_self]

/-- A pass starts from the valid graph that the one before it left. -/
theorem Pipeline.sound_runFrom {pipeline : Pipeline}
    (each : ∀ pass ∈ pipeline, pass.IsTransformation) {program : Program}
    (wellFormed : program.graph.WellFormed) (valid : Graph.Valid program.graph.nodes)
    (tally : Tally) : (pipeline.runFrom program tally).Sound := by
  induction pipeline generalizing program tally with
  | nil => exact ⟨wellFormed, valid, SparesShape.ok ()⟩
  | cons pass later ih =>
      have sound := (each pass List.mem_cons_self).sound_run wellFormed valid tally
      have validated := Graph.validate_eq_ok_iff.mpr sound.valid
      rw [runFrom]
      dsimp only
      split
      · next cause failure =>
        exact ⟨sound.wellFormed, sound.valid, SparesShape.error (sound.spares cause failure)⟩
      · next invalid => cases validated.symm.trans invalid
      · have rest := ih (fun other member => each other (List.mem_cons_of_mem _ member))
          sound.wellFormed sound.valid (pass.run program tally).tally
        exact ⟨rest.wellFormed, rest.valid, rest.spares⟩

/-- Each transformation takes a valid graph to a valid graph, and a pipeline of them leaves a valid
graph and does not fail for the shape of one. -/
theorem transformations_keep_graphs_valid {program : Program}
    (wellFormed : program.graph.WellFormed) (valid : program.graph.validate = .ok ()) :
    (∀ rules graph, (normalize rules program).outcome = .ok graph → graph.validate = .ok ()) ∧
      (∀ rules accepts graph calls, reuseStorage rules accepts program = .ok (graph, calls) →
        graph.validate = .ok ()) ∧
      (∀ rules graph tally, (purify rules program).outcome = .ok (graph, tally) →
        graph.validate = .ok ()) ∧
      ∀ pipeline : Pipeline, (∀ pass ∈ pipeline, pass.IsTransformation) →
        (pipeline.run program).program.graph.validate = .ok () ∧
          ∀ cause, (pipeline.run program).report.outcome = .error cause →
            cause.isStructural = false := by
  have validNodes := Graph.validate_eq_ok_iff.mp valid
  refine ⟨fun rules graph success => ?_, fun rules accepts graph calls success => ?_,
    fun rules graph tally success => ?_, fun pipeline each => ?_⟩
  · exact Graph.validate_eq_ok_iff.mpr (valid_normalize wellFormed validNodes success).2
  · exact Graph.validate_eq_ok_iff.mpr (valid_reuseStorage wellFormed validNodes success).2
  · exact Graph.validate_eq_ok_iff.mpr (valid_purify validNodes success).2
  · have sound := Pipeline.sound_runFrom each wellFormed validNodes ∅
    exact ⟨Graph.validate_eq_ok_iff.mpr sound.valid, sound.spares⟩

/-- A call of the submodule that scales a value. -/
def scaleCall : Node :=
  { op := .callModule "scale", args := [.ref ⟨0⟩], info := some {}, id := ⟨1⟩, name := "scale" }

/-- The result of a submodule is changed in place and then read.  The submodule can be expanded, the
reader can write into the storage that it reads, and the change can be made pure. -/
def scaledInPlace : Program where
  graph :=
    { nodes :=
        [{ op := .placeholder, id := ⟨0⟩, name := "input" },
          scaleCall,
          { op := .callFunction ⟨"torch.relu"⟩, args := [.ref ⟨1⟩],
            kwargs := (∅ : Kwargs NodeId).insert Rules.inplaceKeyword (.literal (.bool true)),
            info := some { isMutation := true }, id := ⟨2⟩, name := "relu" },
          { op := .callFunction ⟨"torch.exp"⟩, args := [.ref ⟨1⟩], info := some {}, id := ⟨3⟩,
            name := "exp" },
          { op := .output, args := [.ref ⟨3⟩], id := ⟨4⟩, name := "output" }]
      created := 5 }
  submodules := [("scale", scaleModule)]

/-- The operations of the program after the expansion. -/
def expandedOps : List Op :=
  [.placeholder, .getAttr "scale.weight", .callFunction ⟨"torch.mul"⟩,
    .callFunction ⟨"torch.relu"⟩, .callFunction ⟨"torch.exp"⟩, .output]

theorem isNormal_of_mem_expandedOps {op : Op} (member : op ∈ expandedOps) (submodules : Forest) :
    op.IsNormal {} submodules := by
  have canonical (function : FunctionPath) : ({} : Rules).canonical function = function :=
    Rules.followAliases_of_none Std.ExtTreeMap.getElem?_empty
  have each : ∀ op ∈ expandedOps, op.IsNormal {} submodules := by
    simp only [expandedOps, List.forall_mem_cons]
    exact ⟨trivial, trivial, canonical _, canonical _, canonical _, trivial, by simp⟩
  exact each op member

/-- Normalization expands the call as long as it stands behind the input. -/
theorem exists_normalize_of_expandedOps {program : Program} {test : Graph → Bool}
    (submodules : program.submodules = scaledInPlace.submodules)
    (starts : program.graph.nodes.take 2 = scaledInPlace.graph.nodes.take 2)
    (expands : (Scan.expandFor 9 program.graph scaleCall "scale" scaleModule).any (fun expanded =>
      (expanded.nodes.map fun node => node.op) = expandedOps && test expanded) = true) :
    ∃ expanded, (normalize {} program).outcome = .ok expanded ∧
      (expanded.nodes.map fun node => node.op) = expandedOps ∧ test expanded = true := by
  obtain ⟨expanded, found, holds⟩ := (Option.any_eq_true _ _).mp expands
  rw [Bool.and_eq_true, decide_eq_true_eq] at holds
  have split : program.graph.nodes = [{ op := .placeholder, id := ⟨0⟩, name := "input" }] ++
      scaleCall :: program.graph.nodes.drop 2 := by
    conv_lhs => rw [← List.take_append_drop 2 program.graph.nodes, starts]
    rfl
  have isFound : program.submodules.find? "scale" = some scaleModule := by rw [submodules]; rfl
  refine ⟨expanded, ?_, holds⟩
  refine outcome_normalize_of_expandFor split (List.forall_mem_singleton.mpr trivial) rfl isFound
    rfl rfl rfl found fun node member => ?_
  exact isNormal_of_mem_expandedOps (holds.1 ▸ List.mem_map_of_mem member) _

/-- Storage reuse, and then purification. -/
def rewriting : Pipeline := [.storageReuse {} fun _ => true, .purification {}]

theorem isTransformation_of_mem_rewriting : ∀ pass ∈ rewriting, pass.IsTransformation :=
  List.forall_mem_cons.mpr ⟨.storageReuse _ _, List.forall_mem_singleton.mpr (.purification _)⟩

/-- With normalization as the last pass, all passes succeed. -/
theorem scaledInPlace_completes :
    (Pipeline.run (rewriting ++ [.normalization {}]) scaledInPlace).report.outcome = .ok () ∧
      ((Pipeline.run (rewriting ++ [.normalization {}]) scaledInPlace).program.graph.nodes.map
        fun node => node.op) = expandedOps := by
  have succeeds : (rewriting.runFrom scaledInPlace ∅).report.outcome = .ok () := by decide +kernel
  obtain ⟨expanded, expanding, ops, valid⟩ := @exists_normalize_of_expandedOps
    (rewriting.runFrom scaledInPlace ∅).program (fun graph => graph.validate = .ok ())
    (Pipeline.submodules_runFrom isTransformation_of_mem_rewriting _ _) (by decide +kernel)
    (by decide +kernel)
  obtain ⟨program, outcome⟩ := Pipeline.runFrom_append succeeds [.normalization {}]
  obtain ⟨lastOutcome, lastProgram⟩ := Pipeline.runFrom_cons_normalization expanding
    (of_decide_eq_true valid) [] (rewriting.runFrom scaledInPlace ∅).tally
  rw [Pipeline.run, outcome, program, lastOutcome, lastProgram]
  exact ⟨rfl, ops⟩

/-- Every pass changes the graph: the call is expanded and its readers read the result of the
expansion, another call writes into the storage of its argument, and what is read after the change
is the result of the pure call.  The expansion has a call without a record of its value, so
purification succeeds before the normalization and fails after it, but not for the shape of the
graph. -/
theorem scaledInPlace_keeps_valid :
    scaledInPlace.graph.validate = .ok () ∧
      (∃ graph, (normalize {} scaledInPlace).outcome = .ok graph ∧
        (graph.nodes.map fun node => node.op) = expandedOps ∧
          (graph.nodes.map fun node => node.inputs) = [[], [], [⟨0⟩, ⟨5⟩], [⟨6⟩], [⟨6⟩], [⟨3⟩]] ∧
            graph.validate = .ok ()) ∧
      (∃ graph calls, reuseStorage {} (fun _ => true) scaledInPlace = .ok (graph, calls) ∧
        calls.map ReusedCall.name = ["exp"] ∧ graph.validate = .ok ()) ∧
      (∃ graph tally, (purify {} scaledInPlace).outcome = .ok (graph, tally) ∧
        (graph.nodes.map fun node => node.inputs) = [[], [⟨0⟩], [⟨1⟩], [⟨2⟩], [⟨3⟩]] ∧
          graph.validate = .ok ()) ∧
      (∃ completed, Pipeline.run (rewriting ++ [.normalization {}]) scaledInPlace = completed ∧
        completed.report.outcome = .ok () ∧
          (completed.program.graph.nodes.map fun node => node.op) = expandedOps ∧
            completed.program.graph.validate = .ok ()) ∧
      (∃ stopped cause, Pipeline.run (.normalization {} :: rewriting) scaledInPlace = stopped ∧
        stopped.report.outcome = .error cause ∧ cause = .missingInfo "mul" .type ∧
          (stopped.program.graph.nodes.map fun node => node.op) = expandedOps ∧
            stopped.program.graph.validate = .ok () ∧ cause.isStructural = false) := by
  have valid : scaledInPlace.graph.validate = .ok () := by decide
  obtain ⟨normalization, reuse, purification, pipeline⟩ :=
    transformations_keep_graphs_valid ⟨by decide, by decide⟩ valid
  -- The test looks at the readers of the call and runs the other passes on the expanded graph.
  obtain ⟨normalized, normalizing, ops, holds⟩ := @exists_normalize_of_expandedOps
    scaledInPlace (fun graph =>
      (graph.nodes.map fun node => node.inputs) = [[], [], [⟨0⟩, ⟨5⟩], [⟨6⟩], [⟨6⟩], [⟨3⟩]] ∧
      (rewriting.run { scaledInPlace with graph }).report.outcome =
          .error (.missingInfo "mul" .type) ∧
        ((rewriting.run { scaledInPlace with graph }).program.graph.nodes.map fun node =>
          node.op) = expandedOps) rfl rfl (by decide +kernel)
  obtain ⟨reused, calls, reusing, changed⟩ : ∃ graph calls,
      reuseStorage {} (fun _ => true) scaledInPlace = .ok (graph, calls) ∧
        calls.map ReusedCall.name = ["exp"] := ⟨_, _, rfl, rfl⟩
  obtain ⟨purified, tally, purifying, rebound⟩ : ∃ graph tally,
      (purify {} scaledInPlace).outcome = .ok (graph, tally) ∧
        (graph.nodes.map fun node => node.inputs) = [[], [⟨0⟩], [⟨1⟩], [⟨2⟩], [⟨3⟩]] :=
    ⟨_, _, rfl, by decide⟩
  obtain ⟨redirected, failure, lastOps⟩ := of_decide_eq_true holds
  have validNormalized := normalization _ _ normalizing
  refine ⟨valid, ⟨normalized, normalizing, ops, redirected, validNormalized⟩,
    ⟨reused, calls, reusing, changed, reuse _ _ _ _ reusing⟩,
    ⟨purified, tally, purifying, rebound, purification _ _ _ purifying⟩, ?_, ?_⟩
  · obtain ⟨outcome, ops⟩ := scaledInPlace_completes
    refine ⟨_, rfl, outcome, ops, (pipeline _ ?_).1⟩
    exact List.forall_mem_append.mpr ⟨isTransformation_of_mem_rewriting,
      List.forall_mem_singleton.mpr (.normalization _)⟩
  · obtain ⟨outcome, program⟩ :=
      Pipeline.runFrom_cons_normalization normalizing validNormalized rewriting ∅
    obtain ⟨validLeft, notStructural⟩ := pipeline (.normalization {} :: rewriting)
      (List.forall_mem_cons.mpr ⟨.normalization _, isTransformation_of_mem_rewriting⟩)
    have failed := outcome.trans failure
    refine ⟨_, _, rfl, failed, rfl, ?_, validLeft, notStructural _ failed⟩
    rw [Pipeline.run, program]
    exact lastOps

end OpGraph
