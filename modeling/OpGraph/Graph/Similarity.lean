import OpGraph.Graph.Basic

/-!
# Similarity of graphs

Two graphs are similar when they have the same operations, records and arguments, node by node,
with references read as positions.  Identities and names play no role.
-/

namespace OpGraph

namespace Instruction

/-- Two instructions agree once their references are read as positions; references to nodes
outside the graphs count as one position. -/
def agreesAt (left right : Instruction) (positionLeft positionRight : NodeId → Option Nat) :
    Bool :=
  left.op = right.op && left.info = right.info &&
    Argument.agreeAll
      (Argument.bindAll (fun id => .ref (positionLeft id)) left.args)
      (Argument.bindAll (fun id => .ref (positionRight id)) right.args) &&
    Kwargs.agrees
      (left.kwargs.bind fun id => .ref (positionLeft id))
      (right.kwargs.bind fun id => .ref (positionRight id))

end Instruction

namespace Graph

/-- The graphs agree node by node. -/
def similar (left right : Graph) : Bool :=
  left.size == right.size &&
    (left.nodes.zip right.nodes).all fun (nodeLeft, nodeRight) =>
      nodeLeft.toInstruction.agreesAt nodeRight.toInstruction left.position? right.position?

end Graph

end OpGraph
