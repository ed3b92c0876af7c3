import OpGraph.Graph.Validity
import OpGraph.Normalization
import OpGraph.Purification
import OpGraph.StorageReuse

/-!
# Pipelines

A pass transforms a program and adds to a tally; it may fail, and what it leaves behind then is
part of its result.  A pipeline runs passes in order and validates the graph after each of them.
The first pass that fails or leaves an invalid graph ends the run.
-/

namespace OpGraph

/-- What a pass leaves behind. -/
structure Transition where
  /-- The program after the pass. -/
  program : Program
  /-- The tally after the pass. -/
  tally : Tally
  /-- Whether the pass succeeded. -/
  report : Report Unit

/-- A transformation of programs. -/
structure Pass where
  /-- The name of the pass. -/
  name : String
  /-- Transform a program and add to a tally. -/
  run : Program → Tally → Transition

namespace Pass

/-- Put the outcome of a transformation into effect, or leave all as it was if it failed. -/
def commit (program : Program) (tally : Tally) (report : Report (Graph × Tally)) : Transition :=
  match report.outcome with
  | .ok (graph, changed) =>
    { program := { program with graph }, tally := changed, report := ⟨report.journal, .ok ()⟩ }
  | .error cause => { program, tally, report := ⟨report.journal, .error cause⟩ }

/-- Bring method calls, function names and submodule calls into normal form. -/
def normalization (rules : Rules) : Pass where
  name := "normalize"
  run program tally := commit program tally do
    let graph ← normalize rules program
    return (graph, tally)

/-- Let calls write into the storage of arguments that are not read again.  The graph is changed in
place. -/
def storageReuse (rules : Rules) (accepts : Signatures) : Pass where
  name := "inplace"
  run program tally :=
    let reuse := reuseInPlace rules accepts program
    { program := { program with graph := reuse.graph }
      tally := ReusedCall.countAll reuse.calls tally
      report := do
        .noteAll (reuse.calls.map ReusedCall.event)
        .ofExcept reuse.outcome
        .note (.storageReuseDone reuse.calls.length) }

/-- Replace calls that change an argument by pure ones. -/
def purification (rules : Rules) : Pass where
  name := "functionalize"
  run program tally := commit program tally do
    let (graph, counted) ← purify rules program
    return (graph, tally.merge counted)

end Pass

/-- Passes in the order in which they run. -/
abbrev Pipeline := List Pass

namespace Pipeline

/-- Run passes from a program and a tally on. -/
def runFrom : Pipeline → Program → Tally → Transition
  | [], program, tally => { program, tally, report := pure () }
  | pass :: later, program, tally =>
    let transition := pass.run program tally
    let journal := .passStarted pass.name program.graph.size :: transition.report.journal
    match transition.report.outcome, transition.program.graph.validate with
    | .error cause, _ => { transition with report := ⟨journal, .error cause⟩ }
    | .ok (), .error cause => { transition with report := ⟨journal, .error cause⟩ }
    | .ok (), .ok () =>
      let rest := runFrom later transition.program transition.tally
      { rest with report := ⟨journal ++ rest.report.journal, rest.report.outcome⟩ }

/-- Run the passes of a pipeline on a program. -/
def run (pipeline : Pipeline) (program : Program) : Transition :=
  pipeline.runFrom program ∅

end Pipeline

end OpGraph
