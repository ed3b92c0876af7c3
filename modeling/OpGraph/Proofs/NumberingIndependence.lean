import OpGraph.Proofs.Atomicity
import OpGraph.Proofs.RenumberedNormalization
import OpGraph.Proofs.RenumberedPurification
import OpGraph.Proofs.RenumberedReuse

/-!
# Independence of numbering

Programs whose graphs are valid and the same up to numbering fare alike in every pass and in every
pipeline: they succeed or fail together, count the same and leave graphs that are again the same up
to numbering.
-/

namespace OpGraph

/-- In a valid graph only nodes of the graph are read, so the renumbering of its nodes covers all
identities in it. -/
theorem Graph.Renumbered.exists_graphPair {left right : Graph} (renumbered : left.Renumbered right)
    (wellFormed : left.WellFormed) (wellFormedRight : right.WellFormed) (valid : Valid left.nodes) :
    ∃ numbering : Numbering, numbering.GraphPair left right := by
  obtain ⟨number, injective, nodes⟩ := renumbered
  refine ⟨⟨{id | id ∈ left.ids}, number, injective⟩, ?_, wellFormed.counted, fun id isKnown => ?_⟩
  · have members := (List.forall₂_and_left left.nodes right.nodes).mpr
      ⟨fun node (member : node ∈ left.nodes) => member, nodes⟩
    refine members.imp fun node nodeRight here => ?_
    refine ⟨List.mem_map_of_mem here.1, here.2.id, fun input isInput => ?_, here.2.instruction⟩
    exact valid.closed.mem_ids here.1 isInput
  · refine wellFormedRight.counted _ ?_
    rw [ids, Node.RenumberedBy.map_id nodes]
    exact List.mem_map_of_mem isKnown

/-- The graphs are the same up to numbering, and the submodules are the same. -/
structure Program.Renumbered (left right : Program) : Prop where
  graph : left.graph.Renumbered right.graph
  submodules : right.submodules = left.submodules

/-- Both transitions succeed or both fail.  They leave programs that are the same up to numbering,
and have counted the same. -/
structure Transition.Alike (left right : Transition) : Prop where
  outcome : Outcome.Matches Eq left.report.outcome right.report.outcome
  program : left.program.Renumbered right.program
  tally : left.tally = right.tally

namespace Pass

variable {left right : Program}

theorem alike_commit (renumbered : left.Renumbered right) (tally : Tally)
    {report reportRight : Report (Graph × Tally)}
    (reports : Outcome.Matches
      (fun result resultRight => result.1.Renumbered resultRight.1 ∧ result.2 = resultRight.2)
      report.outcome reportRight.outcome) :
    (commit left tally report).Alike (commit right tally reportRight) := by
  unfold commit
  generalize report.outcome = outcome, reportRight.outcome = outcomeRight at reports
  cases reports with
  | ok holds => exact ⟨.ok rfl, ⟨holds.1, renumbered.submodules⟩, holds.2⟩
  | error => exact ⟨.error, renumbered, rfl⟩

/-- Storage reuse leaves all as it was if it fails, although it works in place. -/
theorem storageReuse_run_eq {program : Program} (wellFormed : program.graph.WellFormed)
    (rules : Rules) (accepts : Signatures) (tally : Tally) :
    (storageReuse rules accepts).run program tally =
      match reuseStorage rules accepts program with
      | .ok (graph, calls) =>
        { program := { program with graph }
          tally := ReusedCall.countAll calls tally
          report := ⟨calls.map ReusedCall.event ++ [.storageReuseDone calls.length], .ok ()⟩ }
      | .error cause => { program, tally, report := ⟨[], .error cause⟩ } := by
  rcases reuseInPlace_cases wellFormed rules accepts with
    ⟨cause, -, reuse⟩ | ⟨graph, calls, -, reuse, -⟩
  · simp only [storageReuse, reuseStorage, reuse]
    rfl
  · simp only [storageReuse, reuseStorage, reuse]
    rfl

theorem alike_storageReuse (renumbered : left.Renumbered right) (wellFormed : left.graph.WellFormed)
    (wellFormedRight : right.graph.WellFormed) {rules : Rules} {accepts : Signatures}
    (results : Outcome.Matches
      (fun reused reusedRight => reused.1.Renumbered reusedRight.1 ∧
        reused.2.map ReusedCall.manner = reusedRight.2.map ReusedCall.manner)
      (reuseStorage rules accepts left) (reuseStorage rules accepts right)) (tally : Tally) :
    ((storageReuse rules accepts).run left tally).Alike
      ((storageReuse rules accepts).run right tally) := by
  rw [storageReuse_run_eq wellFormed, storageReuse_run_eq wellFormedRight]
  generalize reuseStorage rules accepts left = result,
    reuseStorage rules accepts right = resultRight at results
  cases results with
  | ok same =>
      exact ⟨.ok rfl, ⟨same.1, renumbered.submodules⟩, ReusedCall.countAll_congr same.2 tally⟩
  | error => exact ⟨.error, renumbered, rfl⟩

theorem IsTransformation.alike_run {pass : Pass} (isTransformation : pass.IsTransformation)
    (renumbered : left.Renumbered right) (wellFormed : left.graph.WellFormed)
    (wellFormedRight : right.graph.WellFormed) (valid : Graph.Valid left.graph.nodes)
    (tally : Tally) : (pass.run left tally).Alike (pass.run right tally) := by
  obtain ⟨numbering, graphs⟩ := renumbered.graph.exists_graphPair wellFormed wellFormedRight valid
  cases isTransformation with
  | normalization rules =>
      refine alike_commit renumbered tally ?_
      simp only [Report.outcome_bind]
      exact (normalize_renumbered graphs renumbered.submodules rules).bind
        fun _ _ same => .ok ⟨same, rfl⟩
  | storageReuse rules accepts =>
      have results := reuseStorage_renumbered graphs renumbered.submodules wellFormed
        wellFormedRight rules accepts
      exact alike_storageReuse renumbered wellFormed wellFormedRight results tally
  | purification rules =>
      refine alike_commit renumbered tally ?_
      simp only [Report.outcome_bind]
      exact (purify_renumbered graphs renumbered.submodules rules).bind
        fun _ _ same => .ok ⟨same.1, congrArg tally.merge same.2⟩

end Pass

theorem Pipeline.alike_runFrom {pipeline : Pipeline}
    (each : ∀ pass ∈ pipeline, pass.IsTransformation) {left right : Program}
    (renumbered : left.Renumbered right) (wellFormed : left.graph.WellFormed)
    (wellFormedRight : right.graph.WellFormed) (valid : Graph.Valid left.graph.nodes)
    (validRight : Graph.Valid right.graph.nodes) (tally : Tally) :
    (pipeline.runFrom left tally).Alike (pipeline.runFrom right tally) := by
  induction pipeline generalizing left right tally with
  | nil => exact ⟨.ok rfl, renumbered, rfl⟩
  | cons pass later ih =>
      have isTransformation := each pass List.mem_cons_self
      have alike := isTransformation.alike_run renumbered wellFormed wellFormedRight valid tally
      have sound := isTransformation.sound_run wellFormed valid tally
      have soundRight := isTransformation.sound_run wellFormedRight validRight tally
      have rest := ih (fun other member => each other (List.mem_cons_of_mem _ member))
        alike.program sound.wellFormed soundRight.wellFormed sound.valid soundRight.valid
        (pass.run left tally).tally
      have outcomes := alike.outcome
      rw [runFrom, runFrom]
      simp only [Graph.validate_eq_ok_iff.mpr sound.valid,
        Graph.validate_eq_ok_iff.mpr soundRight.valid]
      rw [alike.tally] at rest
      generalize (pass.run left tally).report.outcome = first,
        (pass.run right tally).report.outcome = second at outcomes
      cases outcomes with
      | error => exact ⟨.error, alike.program, alike.tally⟩
      | ok same =>
          rw [alike.tally]
          exact ⟨rest.outcome, rest.program, rest.tally⟩

/-- Valid programs that are the same up to numbering and naming succeed or fail together in every
transformation and in every pipeline of them, leave programs that are the same up to numbering and
naming, and have counted the same. -/
theorem passes_ignore_numbering {left right : Program} (renumbered : left.Renumbered right)
    (wellFormed : left.graph.WellFormed) (wellFormedRight : right.graph.WellFormed)
    (valid : left.graph.validate = .ok ()) (validRight : right.graph.validate = .ok ()) :
    (∀ pass : Pass, pass.IsTransformation → ∀ tally,
      ((pass.run left tally).report.outcome = .ok () ↔
        (pass.run right tally).report.outcome = .ok ()) ∧
      (pass.run left tally).program.Renumbered (pass.run right tally).program ∧
      (pass.run left tally).tally = (pass.run right tally).tally) ∧
    ∀ pipeline : Pipeline, (∀ pass ∈ pipeline, pass.IsTransformation) →
      ((pipeline.run left).report.outcome = .ok () ↔
        (pipeline.run right).report.outcome = .ok ()) ∧
      (pipeline.run left).program.Renumbered (pipeline.run right).program ∧
      (pipeline.run left).tally = (pipeline.run right).tally := by
  have validNodes := Graph.validate_eq_ok_iff.mp valid
  have validNodesRight := Graph.validate_eq_ok_iff.mp validRight
  constructor
  · intro pass isTransformation tally
    have alike := isTransformation.alike_run renumbered wellFormed wellFormedRight validNodes tally
    exact ⟨alike.outcome.eq_ok_iff, alike.program, alike.tally⟩
  · intro pipeline each
    have alike := Pipeline.alike_runFrom each renumbered wellFormed wellFormedRight validNodes
      validNodesRight ∅
    exact ⟨alike.outcome.eq_ok_iff, alike.program, alike.tally⟩

/-- A submodule call, a call that can be made in place and one whose value is no tensor, numbered in
their order. -/
def orderedCalls : Program where
  graph :=
    { nodes :=
        [{ op := .placeholder, id := ⟨0⟩, name := "input" },
          { op := .callModule "scale", args := [.ref ⟨0⟩], info := some {}, id := ⟨1⟩,
            name := "scale" },
          { op := .callFunction ⟨"torch.exp"⟩, args := [.ref ⟨1⟩], info := some {}, id := ⟨2⟩,
            name := "exp" },
          { op := .callFunction ⟨"torch.relu"⟩, args := [.ref ⟨2⟩], info := some {}, id := ⟨3⟩,
            name := "relu" },
          { op := .callFunction ⟨"torch.numel"⟩, args := [.ref ⟨3⟩],
            info := some { kind := .other "int" }, id := ⟨4⟩, name := "numel" },
          { op := .output, args := [.tuple [.ref ⟨3⟩, .ref ⟨4⟩]], id := ⟨5⟩, name := "output" }]
      created := 6 }
  submodules := [("scale", scaleModule)]

/-- The same calls under other numbers and names, in a graph that has lost some nodes. -/
def scatteredCalls : Program where
  graph :=
    { nodes :=
        [{ op := .placeholder, id := ⟨7⟩, name := "exp" },
          { op := .callModule "scale", args := [.ref ⟨7⟩], info := some {}, id := ⟨2⟩,
            name := "first" },
          { op := .callFunction ⟨"torch.exp"⟩, args := [.ref ⟨2⟩], info := some {}, id := ⟨9⟩,
            name := "second" },
          { op := .callFunction ⟨"torch.relu"⟩, args := [.ref ⟨9⟩], info := some {}, id := ⟨4⟩,
            name := "relu_1" },
          { op := .callFunction ⟨"torch.numel"⟩, args := [.ref ⟨4⟩],
            info := some { kind := .other "int" }, id := ⟨1⟩, name := "count" },
          { op := .output, args := [.tuple [.ref ⟨4⟩, .ref ⟨1⟩]], id := ⟨0⟩, name := "result" }]
      created := 12 }
  submodules := [("scale", scaleModule)]

theorem renumbered_scatteredCalls : orderedCalls.Renumbered scatteredCalls := by
  refine ⟨⟨fun id => ⟨[7, 2, 9, 4, 1, 0].getD id.index 0⟩, ?_, ?_⟩, rfl⟩
  · exact List.inj_on_of_nodup_map (by decide)
  · exact .cons ⟨rfl, rfl⟩ (.cons ⟨rfl, rfl⟩ (.cons ⟨rfl, rfl⟩
      (.cons ⟨rfl, rfl⟩ (.cons ⟨rfl, rfl⟩ (.cons ⟨rfl, rfl⟩ .nil)))))

theorem scatteredCalls_ignore_numbering :
    let reuse := Pass.storageReuse {} (fun _ => true)
    let pipeline : Pipeline := [.normalization {}, reuse, .purification {}]
    ((reuse.run scatteredCalls ∅).report.outcome = .ok () ∧
      (reuse.run orderedCalls ∅).program.Renumbered (reuse.run scatteredCalls ∅).program ∧
      (reuse.run orderedCalls ∅).tally = (reuse.run scatteredCalls ∅).tally ∧
      (reuse.run scatteredCalls ∅).tally.total .optimizations = 2) ∧
    (((Pass.purification {}).run scatteredCalls ∅).report.outcome = .ok () ∧
      ((Pass.purification {}).run orderedCalls ∅).tally =
        ((Pass.purification {}).run scatteredCalls ∅).tally ∧
      ((Pass.purification {}).run scatteredCalls ∅).tally.total .nontensor = 1) ∧
    ((pipeline.run orderedCalls).program.Renumbered (pipeline.run scatteredCalls).program ∧
      (pipeline.run orderedCalls).tally = (pipeline.run scatteredCalls).tally) := by
  obtain ⟨passes, pipelines⟩ := passes_ignore_numbering renumbered_scatteredCalls
    ⟨by decide, by decide⟩ ⟨by decide, by decide⟩ (by decide) (by decide)
  refine ⟨?_, ?_, ?_⟩
  · obtain ⟨succeeds, renumbered, tally⟩ := passes _ (.storageReuse {} fun _ => true) ∅
    exact ⟨succeeds.mp rfl, renumbered, tally, by decide +kernel⟩
  · obtain ⟨succeeds, -, tally⟩ := passes _ (.purification {}) ∅
    exact ⟨succeeds.mp rfl, tally, by decide +kernel⟩
  · refine (pipelines _ fun pass member => ?_).2
    simp only [List.mem_cons, List.not_mem_nil, or_false] at member
    rcases member with rfl | rfl | rfl
    · exact .normalization _
    · exact .storageReuse _ _
    · exact .purification _

end OpGraph
