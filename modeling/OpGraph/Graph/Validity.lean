import OpGraph.Graph.Basic

/-!
# Validity of graphs

A valid graph has its inputs first and its only output last, and every node reads only nodes
before it.  `Graph.validate` checks this from the first node on and reports the first fault.
-/

namespace OpGraph.Graph

/-- What the nodes visited so far have shown. -/
structure Survey where
  /-- The nodes visited so far. -/
  defined : List NodeId := []
  /-- A node that is no input has been visited. -/
  pastInputs : Bool := false
  /-- The name of the output, once it has been visited. -/
  output : Option String := none

namespace Survey

/-- Extend a survey by one node, or report its fault; `graph` serves to name nodes. -/
def visit (graph : Graph) (survey : Survey) (node : Node) : Except Failure Survey :=
  match survey.output with
  | some output =>
    .error (if node.op = .output then .duplicateOutput else .outputNotLast output)
  | none =>
    if node.op = .placeholder ∧ survey.pastInputs then
      .error (.placeholderOutOfOrder node.name)
    else
      match node.inputs.find? fun input => !survey.defined.contains input with
      | some input => .error (.forwardReference node.name (graph.nameOf input))
      | none =>
        .ok
          { defined := node.id :: survey.defined
            pastInputs := survey.pastInputs || node.op ≠ .placeholder
            output := if node.op = .output then some node.name else none }

end Survey

/-- Check that inputs come first, that the only output is last, and that every node reads only
earlier nodes. -/
def validate (graph : Graph) : Except Failure Unit := do
  let survey ← graph.nodes.foldlM (Survey.visit graph) {}
  match survey.output with
  | some _ => return ()
  | none => throw .missingOutput

end OpGraph.Graph
