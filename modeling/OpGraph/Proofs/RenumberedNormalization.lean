import OpGraph.Proofs.NormalizationSteps
import OpGraph.Proofs.Renumbering

/-!
# Normalization under other numbers

Two scans through graphs that are the same up to numbering stay side by side: a node is passed,
renamed or expanded on both sides or on neither.  A submodule is traced without regard to the
calling graph, so an expansion copies the same nodes on both sides, with corresponding arguments
for its inputs.
-/

namespace OpGraph

namespace Numbering

variable {numbering : Numbering} {left right : Graph}

theorem argPair_same (argument : Arg) : same.ArgPair argument argument :=
  ⟨fun _ _ => trivial, (Argument.bind_ref argument).symm⟩

theorem instructionPair_same (instruction : Instruction) :
    same.InstructionPair instruction instruction :=
  ⟨fun _ _ => trivial, (Instruction.bind_ref instruction).symm⟩

/-- Nodes have been added to both graphs, for a value of a call: on both sides with success, and
then with corresponding nodes and values, or on neither. -/
def AddedPair (numbering : Numbering) (left right : Graph × Report Arg) : Prop :=
  Outcome.Matches
    (fun value valueRight => ∃ larger : Numbering, larger.Extends numbering ∧
      larger.GraphPair left.1 right.1 ∧ larger.ArgPair value valueRight)
    left.2.outcome right.2.outcome

theorem AddedPair.of_extends {larger : Numbering} {left right : Graph × Report Arg}
    (added : larger.AddedPair left right) (extension : larger.Extends numbering) :
    numbering.AddedPair left right := by
  refine added.imp ?_
  rintro value valueRight ⟨largest, further, graphs, values⟩
  exact ⟨largest, extension.trans further, graphs, values⟩

open Expansion in
/-- Copying a trace, by induction on its nodes. -/
theorem copyNodes (site : Site) {nodes : List Node} {args argsRight : List Arg}
    {env envRight : Env} (graphs : numbering.GraphPair left right)
    (aims : numbering.Aims left right) (arguments : List.Forall₂ numbering.ArgPair args argsRight)
    (envs : same.EnvPair numbering env envRight) :
    numbering.AddedPair (copyNodes site nodes args env left)
      (copyNodes site nodes argsRight envRight right) := by
  induction nodes generalizing numbering args argsRight env envRight left right with
  | nil => exact .error
  | cons node rest ih =>
      have bindNode : ∀ {larger : Numbering} {value valueRight : Arg},
          larger.Extends numbering → larger.ArgPair value valueRight →
            same.EnvPair larger (env.insert node.id value) (envRight.insert node.id valueRight) :=
        fun extension values => (envs.mono extension).insert trivial values
      -- A node is created on both sides, and the rest is copied behind it.
      have emitted : ∀ {instruction instructionRight : Instruction},
          numbering.InstructionPair instruction instructionRight → numbering.AddedPair
            (copyNodes site rest args (env.insert node.id (.ref left.nextId))
              (left.emit instruction none))
            (copyNodes site rest argsRight (envRight.insert node.id (.ref right.nextId))
              (right.emit instructionRight none)) := by
        intro instruction instructionRight instructions
        have extension := graphs.next_extends
        have stillAims := aims.mono extension
        have later := ih (graphs.emit aims instructions none none)
          ⟨stillAims.isKnown, stillAims.eq⟩ (arguments.imp fun _ _ pair => pair.mono extension)
          (bindNode extension graphs.argPair_nextId)
        exact later.of_extends extension
      cases isOp : node.op with
      | placeholder =>
          cases arguments with
          | nil =>
              simp only [Expansion.copyNodes, isOp]
              exact .error
          | cons first others =>
              simp only [Expansion.copyNodes, isOp]
              exact ih graphs aims others (bindNode (.refl _) first)
      | output =>
          simp only [Expansion.copyNodes, isOp]
          cases node.args with
          | nil => exact .error
          | cons result _ =>
              exact (envs.traverse (argPair_same result)).imp fun _ _ values =>
                ⟨numbering, .refl _, graphs, values⟩
      | getAttr path =>
          simp only [Expansion.copyNodes, isOp]
          exact emitted ⟨fun _ isInput => absurd isInput List.not_mem_nil, rfl⟩
      | callFunction _ | callMethod _ | callModule _ =>
          have read := envs.traverseInstruction (instructionPair_same node.toInstruction)
          simp only [Expansion.copyNodes, isOp]
          generalize node.toInstruction.traverse env.value = first,
            node.toInstruction.traverse envRight.value = second at read
          cases read with
          | ok instructions => exact emitted instructions
          | error => exact .error

theorem splice (graphs : numbering.GraphPair left right) (aims : numbering.Aims left right)
    {instruction instructionRight : Instruction}
    (instructions : numbering.InstructionPair instruction instructionRight) (scope : String)
    (submodule : Submodule) :
    numbering.AddedPair
      (Expansion.splice scope left submodule instruction.args instruction.kwargs)
      (Expansion.splice scope right submodule instructionRight.args instructionRight.kwargs) := by
  unfold Expansion.splice
  rw [instructions.isEmpty_kwargs]
  split
  · dsimp only
    split
    · exact .error
    · rw [instructions.args.length_eq]
      exact copyNodes _ graphs aims instructions.args (.empty _ _)
  · exact .error

theorem AddedPair.enclose {left right : Graph × Report Arg} (added : numbering.AddedPair left right)
    (className : String) :
    numbering.AddedPair (left.1, Expansion.enclose className left.2)
      (right.1, Expansion.enclose className right.2) := by
  obtain ⟨graph, journal, outcome⟩ := left
  obtain ⟨graphRight, journalRight, outcomeRight⟩ := right
  unfold AddedPair at added ⊢
  dsimp only at added
  cases added with
  | ok values => exact .ok values
  | error => exact .error

theorem expand (graphs : numbering.GraphPair left right) (aims : numbering.Aims left right)
    {instruction instructionRight : Instruction}
    (instructions : numbering.InstructionPair instruction instructionRight) (scope : String)
    (submodule : Submodule) :
    let expansion := OpGraph.expand scope left submodule instruction.args instruction.kwargs
    let expansionRight :=
      OpGraph.expand scope right submodule instructionRight.args instructionRight.kwargs
    numbering.AddedPair (expansion.graph, expansion.report)
      (expansionRight.graph, expansionRight.report) := by
  unfold OpGraph.expand
  cases submodule.holdCheck with
  | error cause => exact .error
  | ok held => exact (splice graphs aims instructions scope held).enclose submodule.className

end Numbering

namespace Scan

variable {rules : Rules} {submodules : Forest} {left right : Scan} {node nodeRight : Node}

/-- Two scans that have come to the same place in graphs that are the same up to numbering. -/
structure Parallel (left right : Scan) : Prop where
  cursor : left.cursor = right.cursor
  graphs : ∃ numbering : Numbering, numbering.GraphPair left.graph right.graph

theorem Parallel.advance (parallel : left.Parallel right) :
    left.advance.Parallel right.advance :=
  ⟨congrArg (· + 1) parallel.cursor, parallel.graphs⟩

section Side

variable {numbering : Numbering} (graphs : numbering.GraphPair left.graph right.graph)
variable (cursor : left.cursor = right.cursor) (nodes : numbering.NodePair node nodeRight)

include graphs cursor nodes

theorem parallel_callInstead (function : FunctionPath) :
    (left.callInstead node function).Parallel (right.callInstead nodeRight function) := by
  obtain ⟨larger, -, superseded⟩ := graphs.supersede nodes.isKnown
    (nodes.instruction.withOp (.callFunction function))
  refine ⟨congrArg (· + 1) cursor, larger, ?_⟩
  rw [← nodes.id] at superseded
  exact superseded

theorem parallel_expandCall (path : String) (submodule : Submodule) :
    Outcome.Matches Parallel (left.expandCall node path submodule).outcome
      (right.expandCall nodeRight path submodule).outcome := by
  have aims : numbering.Aims { left.graph with insertionPoint := some node.id }
      { right.graph with insertionPoint := some nodeRight.id } := by
    refine ⟨fun anchor isAnchor => ?_, congrArg some nodes.id⟩
    exact Option.some.inj isAnchor ▸ nodes.isKnown
  have added := Numbering.expand (graphs.moveTo _ _) aims nodes.instruction (path ++ ".") submodule
  simp only [expandCall, Graph.insertingBefore, Report.outcome_bind, Report.outcome_ofExcept,
    Report.outcome_pure]
  refine added.bind ?_
  rintro value valueRight ⟨larger, extension, inner, values⟩
  have isKnown := extension.subset nodes.isKnown
  have erased := ((inner.moveTo left.graph.insertionPoint right.graph.insertionPoint).redirect
    isKnown values).erase isKnown
  rw [extension.agrees nodes.isKnown, ← nodes.id] at erased
  exact erased.bind fun _ _ result => .ok ⟨cursor, larger, result⟩

/-- A visit takes two scans one step on side by side. -/
theorem parallel_visit :
    Outcome.Matches Parallel (left.visit rules submodules node).outcome
      (right.visit rules submodules nodeRight).outcome := by
  have op : nodeRight.op = node.op := nodes.instruction.op_eq
  have advanced : Outcome.Matches Parallel (.ok left.advance) (.ok right.advance) :=
    .ok (Parallel.advance ⟨cursor, numbering, graphs⟩)
  have instead := fun function => parallel_callInstead graphs cursor nodes function
  unfold visit
  rw [op]
  cases node.op with
  | placeholder | getAttr | output => exact advanced
  | callMethod method =>
      dsimp only
      split
      · exact .ok (instead _)
      · exact advanced
  | callFunction function =>
      dsimp only
      split
      · exact advanced
      · exact .ok (instead _)
  | callModule path =>
      simp only [Report.outcome_bind, Report.outcome_ofExcept]
      cases submodules.get path with
      | error cause => exact .error
      | ok submodule =>
          show Outcome.Matches Parallel
            (if rules.opaqueClasses.contains submodule.className = true then _ else _ :
              Report Scan).outcome
            (if rules.opaqueClasses.contains submodule.className = true then _ else _ :
              Report Scan).outcome
          split
          · exact advanced
          · simp only [Report.outcome_bind, Report.outcome_note]
            exact parallel_expandCall graphs cursor nodes path submodule

end Side

theorem Parallel.visit (parallel : left.Parallel right) (rules : Rules) (submodules : Forest)
    (found : left.graph.nodes[left.cursor]? = some node) :
    ∃ nodeRight, right.graph.nodes[right.cursor]? = some nodeRight ∧
      Outcome.Matches Parallel (left.visit rules submodules node).outcome
        (right.visit rules submodules nodeRight).outcome := by
  obtain ⟨cursor, numbering, graphs⟩ := parallel
  obtain ⟨nodeRight, foundRight, nodes⟩ := graphs.exists_getElem? found
  exact ⟨nodeRight, cursor ▸ foundRight, parallel_visit graphs cursor nodes⟩

/-- Two scans side by side end on both sides or on neither, with graphs that are the same up to
numbering. -/
theorem Parallel.run (parallel : left.Parallel right) :
    Outcome.Matches Graph.Renumbered (left.run rules submodules).outcome
      (right.run rules submodules).outcome := by
  induction left using Scan.run.induct rules submodules generalizing right with
  | case1 left noneAhead =>
      obtain ⟨cursor, numbering, graphs⟩ := parallel
      have noneRight := graphs.getElem?_eq_none noneAhead
      rw [cursor] at noneRight
      rw [outcome_run_of_none noneAhead, outcome_run_of_none noneRight]
      exact .ok graphs.renumbered
  | case2 left node found _ cause =>
      rename_i failure
      obtain ⟨nodeRight, foundRight, visits⟩ := parallel.visit rules submodules found
      rw [outcome_run_of_some found, outcome_run_of_some foundRight]
      rw [failure] at visits ⊢
      generalize (right.visit rules submodules nodeRight).outcome = visited at visits
      cases visits with
      | error => exact .error
  | case3 left node found _ next success =>
      rename_i ih
      obtain ⟨nodeRight, foundRight, visits⟩ := parallel.visit rules submodules found
      rw [outcome_run_of_some found, outcome_run_of_some foundRight]
      rw [success] at visits ⊢
      generalize (right.visit rules submodules nodeRight).outcome = visited at visits
      cases visits with
      | ok parallel => exact ih parallel

end Scan

/-- Normalization does not depend on numbers and names. -/
theorem normalize_renumbered {left right : Program} {numbering : Numbering}
    (graphs : numbering.GraphPair left.graph right.graph)
    (submodules : right.submodules = left.submodules) (rules : Rules) :
    Outcome.Matches Graph.Renumbered (normalize rules left).outcome
      (normalize rules right).outcome := by
  rw [outcome_normalize, outcome_normalize, submodules]
  exact Scan.Parallel.run ⟨rfl, numbering, graphs⟩

end OpGraph
