import OpGraph.Graph.Basic
import OpGraph.Outcome

/-!
# Counting submodule calls

How the operations on graphs change the number of nodes and the number of submodule calls.  The
two numbers are what normalization makes smaller.
-/

namespace OpGraph

namespace Instruction

theorem op_bind (image : NodeId → Arg) (instruction : Instruction) :
    (instruction.bind image).op = instruction.op := rfl

theorem op_traverse {ε : Type} {image : NodeId → Except ε Arg} {instruction result : Instruction}
    (found : instruction.traverse image = .ok result) : result.op = instruction.op := by
  obtain ⟨_, _, rest⟩ := Outcome.bind_eq_ok.mp found
  obtain ⟨_, _, same⟩ := Outcome.bind_eq_ok.mp rest
  rw [← Except.ok.inj same]

end Instruction

namespace Graph

/-- The number of submodule calls of a graph. -/
def moduleCalls (graph : Graph) : Nat :=
  graph.nodes.countP fun node => node.op.isModuleCall

theorem length_placeBefore (anchor : NodeId) (new : Node) (nodes : List Node) :
    (placeBefore anchor new nodes).length = nodes.length + 1 := by
  induction nodes with
  | nil => rfl
  | cons node rest ih =>
    simp only [placeBefore]
    split <;> simp [ih]

theorem countP_placeBefore (test : Node → Bool) (anchor : NodeId) (new : Node)
    (nodes : List Node) :
    (placeBefore anchor new nodes).countP test = nodes.countP test + [new].countP test := by
  induction nodes with
  | nil => simp [placeBefore]
  | cons node rest ih =>
    simp only [placeBefore]
    split
    · simp only [List.countP_cons, List.countP_nil]
      omega
    · simp only [List.countP_cons, ih]
      omega

@[simp]
theorem size_emit (graph : Graph) (instruction : Instruction) (hint : Option String) :
    (graph.emit instruction hint).size = graph.size + 1 := by
  simp only [size, emit, place]
  split
  · exact length_placeBefore _ _ _
  · simp

theorem moduleCalls_emit (graph : Graph) (instruction : Instruction) (hint : Option String)
    (isOther : instruction.op.isModuleCall = false) :
    (graph.emit instruction hint).moduleCalls = graph.moduleCalls := by
  simp only [moduleCalls, emit, place]
  split
  · rw [countP_placeBefore]
    simp [isOther]
  · simp [isOther]

theorem moduleCalls_emitBefore (graph : Graph) (anchor : NodeId) (instruction : Instruction)
    (isOther : instruction.op.isModuleCall = false) :
    (graph.emitBefore anchor instruction).moduleCalls = graph.moduleCalls :=
  moduleCalls_emit { graph with insertionPoint := some anchor } instruction none isOther

@[simp]
theorem size_emitBefore (graph : Graph) (anchor : NodeId) (instruction : Instruction) :
    (graph.emitBefore anchor instruction).size = graph.size + 1 :=
  size_emit { graph with insertionPoint := some anchor } instruction none

@[simp]
theorem size_redirect (graph : Graph) (old : NodeId) (new : Arg) :
    (graph.redirect old new).size = graph.size := by
  simp [size, redirect]

@[simp]
theorem moduleCalls_redirect (graph : Graph) (old : NodeId) (new : Arg) :
    (graph.redirect old new).moduleCalls = graph.moduleCalls := by
  simp only [moduleCalls, redirect, List.countP_map]
  rfl

theorem moduleCalls_drop_le (graph : Graph) (id : NodeId) :
    (graph.drop id).moduleCalls ≤ graph.moduleCalls :=
  List.filter_sublist.countP_le

/-- Removing a submodule call leaves fewer of them. -/
theorem moduleCalls_drop_lt {graph : Graph} {node : Node} (member : node ∈ graph.nodes)
    (isCall : node.op.isModuleCall = true) :
    (graph.drop node.id).moduleCalls < graph.moduleCalls := by
  simp only [moduleCalls, drop]
  generalize graph.nodes = nodes at member
  induction nodes with
  | nil => simp at member
  | cons first rest ih =>
    simp only [List.filter_cons, List.countP_cons]
    rcases List.mem_cons.mp member with same | later
    · subst same
      simp only [ne_eq, not_true_eq_false, decide_false, Bool.false_eq_true, if_false, isCall,
        if_true]
      exact Nat.lt_succ_of_le List.filter_sublist.countP_le
    · have smaller := ih later
      split
      · rw [List.countP_cons]
        omega
      · omega

/-- Removing a node of the graph leaves fewer nodes. -/
theorem size_drop_lt {graph : Graph} {node : Node} (member : node ∈ graph.nodes) :
    (graph.drop node.id).size < graph.size := by
  simp only [size, drop]
  exact List.length_filter_lt_length_iff_exists.mpr ⟨node, member, by simp⟩

theorem mem_redirect {graph : Graph} {node : Node} (member : node ∈ graph.nodes) (old : NodeId)
    (new : Arg) :
    { node with toInstruction := node.toInstruction.bind (Argument.single old new) } ∈
      (graph.redirect old new).nodes :=
  List.mem_map.mpr ⟨node, member, rfl⟩

theorem mem_placeBefore {nodes : List Node} {node : Node} (member : node ∈ nodes)
    (anchor : NodeId) (new : Node) : node ∈ placeBefore anchor new nodes := by
  induction nodes with
  | nil => simp at member
  | cons first rest ih =>
    simp only [placeBefore]
    split
    · exact List.mem_cons_of_mem _ member
    · rcases List.mem_cons.mp member with same | later
      · subst same
        exact List.mem_cons_self
      · exact List.mem_cons_of_mem _ (ih later)

theorem mem_emit {graph : Graph} {node : Node} (member : node ∈ graph.nodes)
    (instruction : Instruction) (hint : Option String) :
    node ∈ (graph.emit instruction hint).nodes := by
  simp only [emit, place]
  split
  · exact mem_placeBefore member _ _
  · exact List.mem_append_left _ member

theorem eq_drop_of_erase {graph erased : Graph} {id : NodeId}
    (success : graph.erase id = .ok erased) : erased = graph.drop id := by
  obtain ⟨_, _, rest⟩ := Outcome.bind_eq_ok.mp success
  split at rest
  · exact (Except.ok.inj rest).symm
  · cases rest

end Graph

end OpGraph
