import OpGraph.Graph.Basic
import OpGraph.Text.Columns

/-!
# Listings of graphs

A listing has a header line and one line for every node, in five columns of which the last is not
padded.  Arguments show the names of the nodes that they refer to.
-/

namespace OpGraph.Graph

mutual

/-- An argument with the names of the nodes that it refers to. -/
def showArg (graph : Graph) : Arg → String
  | .ref id => graph.nameOf id
  | .literal value => value.shown
  | .tuple items => "(" ++ ", ".intercalate (showArgs graph items) ++ ")"

/-- Several arguments with the names of the nodes that they refer to. -/
def showArgs (graph : Graph) : List Arg → List String
  | [] => []
  | item :: rest => showArg graph item :: showArgs graph rest

end

/-- One line of a listing. -/
def listingLine (opcode name target args kwargs : String) : String :=
  Text.padRight 14 opcode ++ " " ++ Text.padRight 16 name ++ " " ++ Text.padRight 32 target ++
    " " ++ Text.padRight 28 args ++ " " ++ kwargs ++ "\n"

/-- The keyword arguments of a node between braces. -/
def showKwargs (graph : Graph) (kwargs : Kwargs NodeId) : String :=
  let entries := kwargs.toList.map fun (name, argument) => name ++ "=" ++ graph.showArg argument
  "\x7b" ++ ", ".intercalate entries ++ "\x7d"

/-- The line of a node. -/
def nodeLine (graph : Graph) (node : Node) : String :=
  listingLine node.op.opcode node.name node.target
    ("(" ++ ", ".intercalate (graph.showArgs node.args) ++ ")") (graph.showKwargs node.kwargs)

/-- The listing of a graph. -/
def listing (graph : Graph) : String :=
  listingLine "opcode" "name" "target" "args" "kwargs" ++
    String.join (graph.nodes.map graph.nodeLine)

end OpGraph.Graph
