import OpGraph.Proofs.NormalForm
import OpGraph.Proofs.PassValidity

/-!
# Failures

Storage reuse changes its graph in place, and normalization and purification work on a graph of
their own.  All the same, a pass that fails leaves its program as it was: storage reuse can fail
only while storage is assigned, at the first call of an unknown submodule, and nothing has been
changed or counted by then.

Every pass leaves distinct identities, on valid and invalid graphs alike, so this holds of each pass
of a pipeline, and a pipeline that fails inside a pass leaves the program as the passes before it
left it.
-/

namespace OpGraph

/-! ### The failure of storage reuse -/

/-- The path of a submodule call whose submodule is unknown. -/
def Node.unresolved? (submodules : Forest) (node : Node) : Option String :=
  match node.op with
  | .callModule path => if (submodules.find? path).isNone then some path else none
  | _ => none

theorem Node.unresolved?_eq_some {submodules : Forest} {node : Node} {path : String} :
    node.unresolved? submodules = some path ↔
      node.op = .callModule path ∧ submodules.find? path = none := by
  cases isOp : node.op with
  | callModule target =>
      simp only [unresolved?, isOp, Option.isNone_iff_eq_none, Op.callModule.injEq]
      grind
  | placeholder | getAttr | callFunction | callMethod | output => simp [unresolved?, isOp]

/-- The paths of the submodule calls whose submodules are unknown, in the order of the calls. -/
def Program.unresolvedCalls (program : Program) : List String :=
  program.graph.nodes.filterMap (Node.unresolved? program.submodules)

namespace Storage

variable {rules : Rules} {submodules : Forest} {node : Node}

/-- No storage is assigned to the value of a call of an unknown submodule. -/
theorem place_of_unresolved {path : String} (unresolved : node.unresolved? submodules = some path)
    (storage : Storage) :
    place rules submodules storage node = .error (.unknownSubmodule path) := by
  obtain ⟨isOp, unknown⟩ := Node.unresolved?_eq_some.mp unresolved
  have name : node.shortName submodules = .error (.unknownSubmodule path) := by
    simp only [Node.shortName, isOp, Forest.get, unknown]
    rfl
  have isCall : node.op.isCall = true := by rw [isOp]; rfl
  rw [place, if_pos isCall, sharedArgument?, Node.isView, if_pos isCall, name]
  rfl

theorem exists_shortName (resolved : node.unresolved? submodules = none) :
    ∃ name, node.shortName submodules = .ok name := by
  unfold Node.shortName
  split
  · exact ⟨_, rfl⟩
  · exact ⟨_, rfl⟩
  · next path isOp =>
    rw [Node.unresolved?, isOp] at resolved
    cases found : submodules.find? path with
    | none => simp [found] at resolved
    | some submodule => exact ⟨submodule.className, by rw [Forest.get, found]; rfl⟩
  · exact ⟨_, rfl⟩
  · exact ⟨_, rfl⟩
  · exact ⟨_, rfl⟩

/-- The value of any other node gets storage. -/
theorem exists_place_of_resolved (resolved : node.unresolved? submodules = none)
    (storage : Storage) :
    ∃ next, place rules submodules storage node = .ok next := by
  obtain ⟨name, named⟩ := exists_shortName resolved
  unfold place
  split
  · next isCall =>
    obtain ⟨target, found⟩ : ∃ target, sharedArgument? rules submodules node = .ok target := by
      rw [sharedArgument?, Node.isView, if_pos isCall, named]
      show ∃ target, (if rules.isViewOp name = true then _ else _ : Except Failure _) = _
      split <;> exact ⟨_, rfl⟩
    rw [found]
    cases target <;> exact ⟨_, rfl⟩
  · exact ⟨_, rfl⟩

/-- Storage is assigned up to the first call of an unknown submodule. -/
theorem foldlM_place_eq_error {storage : Storage} {nodes : List Node} {cause : Failure} :
    nodes.foldlM (place rules submodules) storage = .error cause ↔
      ∃ path, (nodes.filterMap (Node.unresolved? submodules)).head? = some path ∧
        cause = .unknownSubmodule path := by
  induction nodes generalizing storage with
  | nil => simp [pure, Except.pure]
  | cons node rest ih =>
      rw [List.foldlM_cons]
      cases resolved : node.unresolved? submodules with
      | some path =>
          rw [place_of_unresolved resolved, List.filterMap_cons_some resolved]
          show Except.error _ = _ ↔ _
          simp [eq_comm]
      | none =>
          obtain ⟨next, placed⟩ :=
            @exists_place_of_resolved rules submodules node resolved storage
          rw [placed, List.filterMap_cons_none resolved]
          exact ih

end Storage

theorem outcome_storageReuse (rules : Rules) (accepts : Signatures) (program : Program)
    (tally : Tally) :
    ((Pass.storageReuse rules accepts).run program tally).report.outcome =
      (reuseInPlace rules accepts program).outcome := by
  simp only [Pass.storageReuse, Report.outcome_bind, Report.outcome_noteAll,
    Report.outcome_ofExcept, Report.outcome_note]
  cases (reuseInPlace rules accepts program).outcome <;> rfl

/-- Storage reuse fails for the first call of an unknown submodule, and for nothing else; it leaves
the program and the tally as they were then. -/
theorem storageReuse_eq_error {program : Program} (wellFormed : program.graph.WellFormed)
    (rules : Rules) (accepts : Signatures) (tally : Tally) (cause : Failure) :
    (((Pass.storageReuse rules accepts).run program tally).report.outcome = .error cause ↔
      ∃ path, program.unresolvedCalls.head? = some path ∧ cause = .unknownSubmodule path) ∧
    (((Pass.storageReuse rules accepts).run program tally).report.outcome = .error cause →
      ((Pass.storageReuse rules accepts).run program tally).program = program ∧
        ((Pass.storageReuse rules accepts).run program tally).tally = tally) := by
  have assigned := @Storage.foldlM_place_eq_error rules program.submodules {} program.graph.nodes
    cause
  rw [outcome_storageReuse]
  rcases reuseInPlace_cases wellFormed rules accepts with
    ⟨actual, failure, left⟩ | ⟨graph, calls, placed, left, -⟩
  · refine ⟨?_, fun _ => ?_⟩
    · rw [Storage.ofProgram] at failure
      rw [failure, Except.error.injEq] at assigned
      rw [left, Except.error.injEq]
      exact assigned
    · simp only [Pass.storageReuse, left]
      exact ⟨trivial, rfl⟩
  · rw [left]
    refine ⟨⟨fun failure => (by cases failure), fun unresolved => ?_⟩,
      fun failure => (by cases failure)⟩
    rw [Storage.ofProgram, assigned.mpr unresolved] at placed
    cases placed

theorem exists_unresolvedCall {program : Program} :
    (∃ path, program.unresolvedCalls.head? = some path) ↔
      ∃ node ∈ program.graph.nodes, ∃ path, node.op = .callModule path ∧
        program.submodules.find? path = none := by
  constructor
  · rintro ⟨path, first⟩
    obtain ⟨node, member, unresolved⟩ := List.mem_filterMap.mp (List.mem_of_head? first)
    exact ⟨node, member, path, Node.unresolved?_eq_some.mp unresolved⟩
  · rintro ⟨node, member, path, unresolved⟩
    have listed : path ∈ program.unresolvedCalls :=
      List.mem_filterMap.mpr ⟨node, member, Node.unresolved?_eq_some.mpr unresolved⟩
    exact ⟨_, List.head?_eq_some_head (List.ne_nil_of_mem listed)⟩

/-! ### Passes -/

theorem ReuseWalk.wellFormed_visit {walk : ReuseWalk} (wellFormed : walk.graph.WellFormed)
    (rules : Rules) (accepts : Signatures) (id : NodeId) :
    (walk.visit rules accepts id).graph.WellFormed := by
  unfold visit
  split
  · next node _ => exact wellFormed_change wellFormed rules accepts node
  · exact wellFormed

theorem wellFormed_reuseStorage {rules : Rules} {accepts : Signatures} {program : Program}
    {graph : Graph} {calls : List ReusedCall} (wellFormed : program.graph.WellFormed)
    (success : reuseStorage rules accepts program = .ok (graph, calls)) : graph.WellFormed := by
  obtain ⟨storage, -, rfl, -⟩ := reuseStorage_eq_ok wellFormed success
  exact ReuseWalk.run_induction (motive := fun _ walk => walk.graph.WellFormed) wellFormed
    fun _ node _ kept => ReuseWalk.wellFormed_visit kept rules accepts node.id

theorem wellFormed_purify {rules : Rules} {program : Program} {graph : Graph} {tally : Tally}
    (success : (purify rules program).outcome = .ok (graph, tally)) : graph.WellFormed := by
  obtain ⟨env, stage⟩ := stage_purify success
  exact stage.wellFormed

namespace Pass

/-- A transformation that fails leaves the program as it was. -/
theorem IsTransformation.program_run_of_error {pass : Pass}
    (isTransformation : pass.IsTransformation) {program : Program}
    (wellFormed : program.graph.WellFormed) {tally : Tally} {cause : Failure}
    (failure : (pass.run program tally).report.outcome = .error cause) :
    (pass.run program tally).program = program := by
  have commits (report : Report (Graph × Tally))
      (failed : (commit program tally report).report.outcome = .error cause) :
      (commit program tally report).program = program := by
    unfold commit at failed ⊢
    split
    · next success =>
      rw [success] at failed
      cases failed
    · rfl
  cases isTransformation with
  | normalization rules => exact commits _ failure
  | storageReuse rules accepts =>
      exact ((storageReuse_eq_error wellFormed rules accepts tally cause).2 failure).1
  | purification rules => exact commits _ failure

theorem wellFormed_commit {program : Program} {tally : Tally} {report : Report (Graph × Tally)}
    (wellFormed : program.graph.WellFormed)
    (result : ∀ graph changed, report.outcome = .ok (graph, changed) → graph.WellFormed) :
    (commit program tally report).program.graph.WellFormed := by
  unfold commit
  split
  · next graph changed success => exact result graph changed success
  · exact wellFormed

/-- The identities of a graph stay distinct, whether it is valid or not. -/
theorem IsTransformation.wellFormed_run {pass : Pass} (isTransformation : pass.IsTransformation)
    {program : Program} (wellFormed : program.graph.WellFormed) (tally : Tally) :
    (pass.run program tally).program.graph.WellFormed := by
  cases isTransformation with
  | normalization rules =>
      refine wellFormed_commit wellFormed fun graph changed success => ?_
      rw [Report.outcome_bind] at success
      obtain ⟨result, normalized, same⟩ := Outcome.bind_eq_ok.mp success
      obtain ⟨rfl, -⟩ := Prod.mk.inj (Except.ok.inj same)
      exact (settled_normalize wellFormed normalized).1
  | storageReuse rules accepts =>
      rcases reuseInPlace_cases wellFormed rules accepts with
        ⟨cause, -, left⟩ | ⟨graph, calls, -, left, success⟩
      · simp only [Pass.storageReuse, left]
        exact wellFormed
      · simp only [Pass.storageReuse, left]
        exact wellFormed_reuseStorage wellFormed success
  | purification rules =>
      refine wellFormed_commit wellFormed fun graph changed success => ?_
      rw [Report.outcome_bind] at success
      obtain ⟨result, purified, same⟩ := Outcome.bind_eq_ok.mp success
      obtain ⟨rfl, -⟩ := Prod.mk.inj (Except.ok.inj same)
      exact wellFormed_purify purified

end Pass

/-! ### Pipelines -/

namespace Pipeline

theorem wellFormed_runFrom {pipeline : Pipeline} (each : ∀ pass ∈ pipeline, pass.IsTransformation)
    {program : Program} (wellFormed : program.graph.WellFormed) (tally : Tally) :
    (pipeline.runFrom program tally).program.graph.WellFormed := by
  induction pipeline generalizing program tally with
  | nil => exact wellFormed
  | cons pass later ih =>
      have next := (each pass List.mem_cons_self).wellFormed_run wellFormed tally
      rw [runFrom]
      dsimp only
      split
      · exact next
      · exact next
      · exact ih (fun other member => each other (List.mem_cons_of_mem _ member)) next _

/-- A pass that fails ends the run, with its own failure and the program that it left. -/
theorem runFrom_cons_of_error {pass : Pass} {later : Pipeline} {program : Program} {tally : Tally}
    {cause : Failure} (failure : (pass.run program tally).report.outcome = .error cause) :
    (runFrom (pass :: later) program tally).report.outcome = .error cause ∧
      (runFrom (pass :: later) program tally).program = (pass.run program tally).program := by
  rw [runFrom]
  simp only [failure]
  exact ⟨trivial, trivial⟩

/-- A run that fails does so in one of its passes or in the validation after it, when the passes
before have succeeded. -/
theorem exists_failing_pass {pipeline : Pipeline} {program : Program} {tally : Tally}
    {cause : Failure} (failure : (pipeline.runFrom program tally).report.outcome = .error cause) :
    ∃ first pass later, pipeline = first ++ pass :: later ∧
      (runFrom first program tally).report.outcome = .ok () ∧
        let left := runFrom first program tally
        let transition := pass.run left.program left.tally
        (pipeline.runFrom program tally).program = transition.program ∧
          (transition.report.outcome = .error cause ∨
            transition.report.outcome = .ok () ∧
              transition.program.graph.validate = .error cause) := by
  induction pipeline generalizing program tally with
  | nil => cases failure
  | cons pass rest ih =>
      rw [runFrom] at failure ⊢
      dsimp only at failure ⊢
      split at failure
      · next actual _ failed =>
        obtain rfl := Except.error.inj failure
        exact ⟨[], pass, rest, rfl, rfl, rfl, Or.inl failed⟩
      · next actual passed invalid =>
        obtain rfl := Except.error.inj failure
        exact ⟨[], pass, rest, rfl, rfl, rfl, Or.inr ⟨passed, invalid⟩⟩
      · next passed valid =>
        obtain ⟨first, failing, later, split, succeeds, result⟩ := ih failure
        refine ⟨pass :: first, failing, later, congrArg _ split, ?_, ?_⟩
        · rw [runFrom]
          simp only [passed, valid]
          exact succeeds
        · rw [runFrom]
          simp only [passed, valid]
          exact result

end Pipeline

/-- Passes that fail leave the program as it was.  Storage reuse fails exactly for a call of an
unknown submodule, at the first of them, and leaves the tally as well.  A pipeline that fails inside
a pass leaves what the passes before it left; otherwise the graph that a pass leaves is invalid. -/
theorem failures_are_atomic {program : Program} (wellFormed : program.graph.WellFormed) :
    (∀ rules accepts tally,
      let transition := (Pass.storageReuse rules accepts).run program tally
      ((∃ cause, transition.report.outcome = .error cause) ↔
        ∃ node ∈ program.graph.nodes, ∃ path, node.op = .callModule path ∧
          program.submodules.find? path = none) ∧
      ∀ cause, transition.report.outcome = .error cause →
        (∃ path, program.unresolvedCalls.head? = some path ∧ cause = .unknownSubmodule path) ∧
          transition.program = program ∧ transition.tally = tally) ∧
    (∀ pass : Pass, pass.IsTransformation → ∀ tally cause,
      (pass.run program tally).report.outcome = .error cause →
        (pass.run program tally).program = program) ∧
    ∀ pipeline : Pipeline, (∀ pass ∈ pipeline, pass.IsTransformation) →
      (∀ first pass later, pipeline = first ++ pass :: later →
        let left := Pipeline.run first program
        left.report.outcome = .ok () → ∀ cause,
          (pass.run left.program left.tally).report.outcome = .error cause →
            (pipeline.run program).report.outcome = .error cause ∧
              (pipeline.run program).program = left.program) ∧
      ∀ cause, (pipeline.run program).report.outcome = .error cause →
        ∃ first pass later, pipeline = first ++ pass :: later ∧
          let left := Pipeline.run first program
          let transition := pass.run left.program left.tally
          left.report.outcome = .ok () ∧ (pipeline.run program).program = transition.program ∧
            (transition.report.outcome = .error cause ∨
              transition.report.outcome = .ok () ∧
                transition.program.graph.validate = .error cause) := by
  refine ⟨fun rules accepts tally => ?_, fun pass isTransformation tally cause failure => ?_,
    fun pipeline each => ⟨?_, ?_⟩⟩
  · have failing := storageReuse_eq_error wellFormed rules accepts tally
    refine ⟨⟨?_, fun unresolved => ?_⟩, fun cause failure => ?_⟩
    · rintro ⟨cause, failure⟩
      obtain ⟨path, first, -⟩ := (failing cause).1.mp failure
      exact exists_unresolvedCall.mp ⟨path, first⟩
    · obtain ⟨path, first⟩ := exists_unresolvedCall.mpr unresolved
      exact ⟨_, (failing _).1.mpr ⟨path, first, rfl⟩⟩
    · exact ⟨(failing cause).1.mp failure, (failing cause).2 failure⟩
  · exact isTransformation.program_run_of_error wellFormed failure
  · rintro first pass later rfl left success cause failure
    have before : ∀ other ∈ first, other.IsTransformation := fun other member =>
      each other (List.mem_append_left _ member)
    have here : pass.IsTransformation := each pass (by simp)
    obtain ⟨program, outcome⟩ := Pipeline.runFrom_append success (pass :: later)
    obtain ⟨fails, kept⟩ := @Pipeline.runFrom_cons_of_error pass later _ _ _ failure
    have unchanged := here.program_run_of_error (Pipeline.wellFormed_runFrom before wellFormed ∅)
      failure
    exact ⟨outcome.trans fails, program.trans (kept.trans unchanged)⟩
  · intro cause failure
    exact Pipeline.exists_failing_pass failure

/-- Calls of two unknown submodules, after a call that reads its own value. -/
def unknownCalls : Program where
  graph :=
    { nodes :=
        [{ op := .callFunction ⟨"torch.exp"⟩, args := [.ref ⟨0⟩], id := ⟨0⟩, name := "exp" },
          { op := .callModule "block.first", args := [.ref ⟨0⟩], id := ⟨1⟩, name := "first" },
          { op := .callModule "block.second", args := [.ref ⟨1⟩], id := ⟨2⟩, name := "second" }]
      created := 3 }

/-- Two calls of which nothing is recorded.  The second one can write into the value of the first,
and neither can be made pure. -/
def unrecordedCalls : Program where
  graph :=
    { nodes :=
        [{ op := .placeholder, id := ⟨0⟩, name := "input" },
          { op := .callFunction ⟨"torch.exp"⟩, args := [.ref ⟨0⟩], id := ⟨1⟩, name := "exp" },
          { op := .callFunction ⟨"torch.relu"⟩, args := [.ref ⟨1⟩], id := ⟨2⟩, name := "relu" },
          { op := .output, args := [.ref ⟨2⟩], id := ⟨3⟩, name := "output" }]
      created := 4 }

theorem unrecordedCalls_fail_atomically :
    (let transition := (Pass.storageReuse {} fun _ => true).run unknownCalls ∅;
      transition.report.outcome = .error (.unknownSubmodule "block.first") ∧
        transition.program = unknownCalls ∧ transition.tally = ∅) ∧
    let reuse := Pass.storageReuse {} (fun _ => true)
    let left := Pipeline.run [reuse] unrecordedCalls
    left.program.graph ≠ unrecordedCalls.graph ∧
      (Pipeline.run [reuse, .purification {}, reuse] unrecordedCalls).report.outcome =
          .error (.missingInfo "exp" .type) ∧
        (Pipeline.run [reuse, .purification {}, reuse] unrecordedCalls).program = left.program := by
  constructor
  · obtain ⟨reuse, -, -⟩ := @failures_are_atomic unknownCalls ⟨by decide, by decide⟩
    have failure : ((Pass.storageReuse {} fun _ => true).run unknownCalls ∅).report.outcome =
        .error (.unknownSubmodule "block.first") := by
      rfl
    exact ⟨failure, ((reuse _ _ _).2 _ failure).2⟩
  · obtain ⟨-, -, run⟩ := @failures_are_atomic unrecordedCalls ⟨by decide, by decide⟩
    let reuse := Pass.storageReuse {} (fun _ => true)
    have each : ∀ pass ∈ [reuse, .purification {}, reuse], pass.IsTransformation := by
      intro pass member
      simp only [List.mem_cons, List.not_mem_nil, or_false] at member
      rcases member with rfl | rfl | rfl
      · exact .storageReuse _ _
      · exact .purification _
      · exact .storageReuse _ _
    refine ⟨by decide +kernel, ?_⟩
    exact (run _ each).1 [reuse] (.purification {}) [reuse] rfl rfl _ rfl

end OpGraph
