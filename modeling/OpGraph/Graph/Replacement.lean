import OpGraph.Graph.Basic

/-!
# Counted replacement

`Graph.replaceUses` lets the readers of a node read an argument instead, and counts the nodes that
it changes.  Whether a node has been changed is found out while its arguments are rewritten, so that
every argument is visited once.
-/

namespace OpGraph

namespace Argument

variable {ρ : Type} [DecidableEq ρ]

mutual

/-- Put `new` in the place of every reference to `old`, and tell whether there was one. -/
def replace (old : ρ) (new : Argument ρ) : Argument ρ → Argument ρ × Bool
  | ref target => if target = old then (new, true) else (ref target, false)
  | literal value => (literal value, false)
  | tuple items =>
    let (replaced, found) := replaceAll old new items
    (tuple replaced, found)

/-- Put `new` in the place of every reference to `old` in several arguments. -/
def replaceAll (old : ρ) (new : Argument ρ) :
    List (Argument ρ) → List (Argument ρ) × Bool
  | [] => ([], false)
  | item :: rest =>
    let (first, found) := replace old new item
    let (others, foundLater) := replaceAll old new rest
    (first :: others, found || foundLater)

end

end Argument

/-- Put `new` in the place of every reference to `old` in keyword arguments. -/
def Kwargs.replace {ρ : Type} [DecidableEq ρ] (old : ρ) (new : Argument ρ) (kwargs : Kwargs ρ) :
    Kwargs ρ × Bool :=
  let replaced := kwargs.map fun _ argument => Argument.replace old new argument
  (replaced.map fun _ (argument, _) => argument, replaced.toList.any fun (_, _, found) => found)

/-- Let an instruction read `new` wherever it read `old`, and tell whether it did. -/
def Instruction.replace (old : NodeId) (new : Arg) (instruction : Instruction) :
    Instruction × Bool :=
  let (args, found) := Argument.replaceAll old new instruction.args
  let (kwargs, foundByName) := instruction.kwargs.replace old new
  ({ instruction with args, kwargs }, found || foundByName)

namespace Graph

/-- Let nodes read `new` wherever they read `old`, and count those that did. -/
def replaceIn (old : NodeId) (new : Arg) : List Node → List Node × Nat
  | [] => ([], 0)
  | node :: rest =>
    let (instruction, found) := node.toInstruction.replace old new
    let (others, count) := replaceIn old new rest
    ({ node with toInstruction := instruction } :: others, if found then count + 1 else count)

/-- Let every reader of `old` read `new` instead, and count the readers. -/
def replaceUses (graph : Graph) (old : NodeId) (new : Arg) : Graph × Nat :=
  let (nodes, count) := replaceIn old new graph.nodes
  ({ graph with nodes }, count)

end Graph

end OpGraph
