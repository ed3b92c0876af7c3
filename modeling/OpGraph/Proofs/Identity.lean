import Mathlib.Data.List.Nodup
import OpGraph.Graph.Basic
import OpGraph.Proofs.Substitution

/-!
# Identities and places of nodes

The identities of a graph are distinct, and each of them has been handed out.  Every operation on
graphs keeps this, so it holds of every graph that the operations build.

A graph with a gap between two lists of nodes places its next node there, and the gap then lies
behind the new node (`Graph.Gap.emit`).  Appending to a graph, inserting before a node and replacing
a node are all described by where the gap is.
-/

namespace OpGraph

namespace Node

/-- Let a node read `new` wherever it read `old`. -/
def redirect (old : NodeId) (new : Arg) (node : Node) : Node :=
  { node with toInstruction := node.toInstruction.bind (Argument.single old new) }

@[simp]
theorem op_redirect (old : NodeId) (new : Arg) (node : Node) :
    (node.redirect old new).op = node.op := rfl

theorem redirect_of_not_mem {old : NodeId} {new : Arg} {node : Node} (absent : old ∉ node.inputs) :
    node.redirect old new = node := by
  rw [redirect, Instruction.bind_single_of_not_mem absent]

theorem map_redirect_of_not_mem {old : NodeId} {new : Arg} {nodes : List Node}
    (absent : ∀ node ∈ nodes, old ∉ node.inputs) : nodes.map (redirect old new) = nodes := by
  rw [List.map_congr_left fun node member => redirect_of_not_mem (absent node member),
    List.map_id']

@[simp]
theorem map_id_map_redirect (old : NodeId) (new : Arg) (nodes : List Node) :
    (nodes.map (redirect old new)).map Node.id = nodes.map Node.id := by
  rw [List.map_map]
  rfl

/-- A redirected node reads what it read before, but for the old node, or part of the new
argument. -/
theorem mem_inputs_redirect {old target : NodeId} {new : Arg} {node : Node}
    (isInput : target ∈ (node.redirect old new).inputs) :
    (target ∈ node.inputs ∧ target ≠ old) ∨ (old ∈ node.inputs ∧ target ∈ new.refs) := by
  obtain ⟨source, isSource, isTarget⟩ := Instruction.mem_inputs_bind.mp isInput
  rw [Argument.single] at isTarget
  split at isTarget
  · next same =>
    rw [same] at isSource
    exact Or.inr ⟨isSource, isTarget⟩
  · next different =>
    obtain rfl := List.mem_singleton.mp isTarget
    exact Or.inl ⟨isSource, different⟩

end Node

namespace Graph

/-- The identities of the nodes are distinct, and each of them has been handed out. -/
structure WellFormed (graph : Graph) : Prop where
  /-- No two nodes share an identity. -/
  distinct : graph.ids.Nodup
  /-- Identities count the created nodes. -/
  counted : ∀ id ∈ graph.ids, id.index < graph.created

/-- The node that comes into being when an instruction is emitted. -/
def newNode (graph : Graph) (instruction : Instruction) (hint : Option String) : Node :=
  { instruction with
    id := graph.nextId
    name := graph.freshName (baseName instruction.op hint) }

theorem WellFormed.nextId_not_mem {graph : Graph} (wellFormed : graph.WellFormed) :
    graph.nextId ∉ graph.ids := by
  intro member
  exact Nat.lt_irrefl _ (wellFormed.counted _ member)

theorem placeBefore_perm (anchor : NodeId) (new : Node) (nodes : List Node) :
    (placeBefore anchor new nodes).Perm (new :: nodes) := by
  induction nodes with
  | nil => exact List.Perm.refl _
  | cons node rest ih =>
      rw [placeBefore]
      split
      · exact List.Perm.refl _
      · exact (ih.cons node).trans (List.Perm.swap new node rest)

theorem nodes_emit_perm (graph : Graph) (instruction : Instruction) (hint : Option String) :
    (graph.emit instruction hint).nodes.Perm (graph.newNode instruction hint :: graph.nodes) := by
  show (graph.place (graph.newNode instruction hint)).Perm _
  rw [place]
  split
  · exact placeBefore_perm _ _ _
  · exact List.perm_append_singleton _ _

theorem WellFormed.emit {graph : Graph} (wellFormed : graph.WellFormed)
    (instruction : Instruction) (hint : Option String) :
    (graph.emit instruction hint).WellFormed := by
  have ids : (graph.emit instruction hint).ids.Perm (graph.nextId :: graph.ids) :=
    (nodes_emit_perm graph instruction hint).map Node.id
  constructor
  · rw [ids.nodup_iff, List.nodup_cons]
    exact ⟨wellFormed.nextId_not_mem, wellFormed.distinct⟩
  · intro id member
    show id.index < graph.created + 1
    rcases List.mem_cons.mp (ids.mem_iff.mp member) with rfl | old
    · exact Nat.lt_succ_self _
    · exact Nat.lt_succ_of_lt (wellFormed.counted id old)

/-- The insertion point plays no part in being well-formed. -/
theorem WellFormed.moveTo {graph : Graph} (wellFormed : graph.WellFormed)
    (point : Option NodeId) : ({ graph with insertionPoint := point } : Graph).WellFormed :=
  ⟨wellFormed.distinct, wellFormed.counted⟩

theorem ids_redirect (graph : Graph) (old : NodeId) (new : Arg) :
    (graph.redirect old new).ids = graph.ids :=
  Node.map_id_map_redirect old new graph.nodes

theorem WellFormed.redirect {graph : Graph} (wellFormed : graph.WellFormed) (old : NodeId)
    (new : Arg) : (graph.redirect old new).WellFormed := by
  constructor
  · rw [ids_redirect]
    exact wellFormed.distinct
  · intro id member
    rw [ids_redirect] at member
    exact wellFormed.counted id member

theorem WellFormed.drop {graph : Graph} (wellFormed : graph.WellFormed) (id : NodeId) :
    (graph.drop id).WellFormed := by
  have sublist : (graph.drop id).ids.Sublist graph.ids := List.filter_sublist.map Node.id
  constructor
  · exact wellFormed.distinct.sublist sublist
  · intro other member
    exact wellFormed.counted other (sublist.subset member)

theorem wellFormed_empty : ({} : Graph).WellFormed :=
  ⟨List.nodup_nil, fun _ member => absurd member List.not_mem_nil⟩

/-- New nodes are placed between `before` and `after`. -/
inductive Gap (graph : Graph) : List Node → List Node → Prop where
  /-- New nodes are placed at the end. -/
  | atEnd {nodes : List Node} (split : graph.nodes = nodes)
      (point : graph.insertionPoint = none) : Gap graph nodes []
  /-- New nodes are placed before a node of the graph. -/
  | ahead {before : List Node} {node : Node} {after : List Node}
      (split : graph.nodes = before ++ node :: after)
      (point : graph.insertionPoint = some node.id) : Gap graph before (node :: after)

theorem Gap.nodes_eq {graph : Graph} {before after : List Node} (gap : graph.Gap before after) :
    graph.nodes = before ++ after := by
  cases gap with
  | atEnd split _ => rw [split, List.append_nil]
  | ahead split _ => exact split

/-- The node at a position stands between the nodes before it and the nodes behind it. -/
theorem exists_split_of_getElem? {nodes : List Node} {position : Nat} {node : Node}
    (found : nodes[position]? = some node) :
    ∃ before after, nodes = before ++ node :: after ∧ before.length = position := by
  obtain ⟨inRange, rfl⟩ := List.getElem?_eq_some_iff.mp found
  refine ⟨nodes.take position, nodes.drop (position + 1), ?_, ?_⟩
  · rw [← List.drop_eq_getElem_cons, List.take_append_drop]
  · exact List.length_take_of_le (Nat.le_of_lt inRange)

theorem placeBefore_append {before after : List Node} {node : Node} (new : Node)
    (absent : node.id ∉ before.map Node.id) :
    placeBefore node.id new (before ++ node :: after) = before ++ new :: node :: after := by
  induction before with
  | nil => simp [placeBefore]
  | cons first rest ih =>
      simp only [List.map_cons, List.mem_cons, not_or] at absent
      simp only [List.cons_append, placeBefore]
      rw [if_neg (Ne.symm absent.1), ih absent.2]

/-- In a list of distinct identities, that of a node does not occur among the earlier ones. -/
theorem WellFormed.not_mem_before {graph : Graph} (wellFormed : graph.WellFormed)
    {before after : List Node} {node : Node} (split : graph.nodes = before ++ node :: after) :
    node.id ∉ before.map Node.id := by
  have distinct := wellFormed.distinct
  rw [ids, split, List.map_append, List.map_cons, List.nodup_append] at distinct
  intro member
  exact distinct.2.2 _ member _ List.mem_cons_self rfl

theorem WellFormed.not_mem_after {graph : Graph} (wellFormed : graph.WellFormed)
    {before after : List Node} {node : Node} (split : graph.nodes = before ++ node :: after) :
    node.id ∉ after.map Node.id := by
  have distinct := wellFormed.distinct
  rw [ids, split, List.map_append, List.map_cons, List.nodup_append] at distinct
  exact (List.nodup_cons.mp distinct.2.1).1

/-- A node is found under its identity. -/
theorem find?_of_split {graph : Graph} (wellFormed : graph.WellFormed)
    {before after : List Node} {node : Node} (split : graph.nodes = before ++ node :: after) :
    graph.find? node.id = some node := by
  have earlier : before.find? (fun other => other.id = node.id) = none := by
    rw [List.find?_eq_none]
    intro other member
    have different : other.id ≠ node.id := fun same =>
      wellFormed.not_mem_before split (same ▸ List.mem_map_of_mem member)
    simpa using different
  rw [find?, split, List.find?_append, earlier]
  simp

/-- Without an insertion point, the next node is placed at the end. -/
theorem nodes_emit_of_none {graph : Graph} (point : graph.insertionPoint = none)
    (instruction : Instruction) (hint : Option String) :
    (graph.emit instruction hint).nodes = graph.nodes ++ [graph.newNode instruction hint] := by
  show graph.place (graph.newNode instruction hint) = _
  rw [place, point]

/-- The next node is placed in the gap, which then lies behind it. -/
theorem Gap.emit {graph : Graph} (wellFormed : graph.WellFormed) {before after : List Node}
    (gap : graph.Gap before after) (instruction : Instruction) (hint : Option String) :
    (graph.emit instruction hint).Gap (before ++ [graph.newNode instruction hint]) after := by
  cases gap with
  | atEnd split point =>
      refine .atEnd ?_ point
      rw [nodes_emit_of_none point, split]
  | @ahead node after split point =>
      refine .ahead ?_ point
      show graph.place (graph.newNode instruction hint) = _
      rw [place, point]
      simp only [split]
      rw [placeBefore_append _ (wellFormed.not_mem_before split), List.append_assoc]
      rfl

/-- Moving the insertion point to a node opens a gap before it. -/
theorem gap_before {graph : Graph} {before after : List Node} {node : Node}
    (split : graph.nodes = before ++ node :: after) :
    ({ graph with insertionPoint := some node.id } : Graph).Gap before (node :: after) :=
  .ahead split rfl

theorem gap_empty : ({} : Graph).Gap [] [] :=
  .atEnd rfl rfl

/-- Removing a node leaves those before and after it. -/
theorem nodes_drop {graph : Graph} (wellFormed : graph.WellFormed) {before after : List Node}
    {node : Node} (split : graph.nodes = before ++ node :: after) :
    (graph.drop node.id).nodes = before ++ after := by
  have earlier : ∀ other ∈ before, decide (other.id ≠ node.id) = true := by
    intro other member
    have different : other.id ≠ node.id := fun same =>
      wellFormed.not_mem_before split (same ▸ List.mem_map_of_mem member)
    simpa using different
  have later : ∀ other ∈ after, decide (other.id ≠ node.id) = true := by
    intro other member
    have different : other.id ≠ node.id := fun same =>
      wellFormed.not_mem_after split (same ▸ List.mem_map_of_mem member)
    simpa using different
  show graph.nodes.filter (fun other => decide (other.id ≠ node.id)) = _
  rw [split, List.filter_append, List.filter_cons, if_neg (by simp),
    List.filter_eq_self.mpr earlier, List.filter_eq_self.mpr later]

/-- Removing a node whose readers have been redirected leaves the others, redirected. -/
theorem nodes_drop_redirect_map {graph : Graph} (wellFormed : graph.WellFormed)
    {before after : List Node} {node : Node} (split : graph.nodes = before ++ node :: after)
    (new : Arg) :
    ((graph.redirect node.id new).drop node.id).nodes =
      (before ++ after).map (Node.redirect node.id new) := by
  have redirected : (graph.redirect node.id new).nodes =
      before.map (Node.redirect node.id new) ++
        node.redirect node.id new :: after.map (Node.redirect node.id new) := by
    show graph.nodes.map (Node.redirect node.id new) = _
    rw [split, List.map_append, List.map_cons]
  have dropped := nodes_drop (wellFormed.redirect node.id new) redirected
  rw [List.map_append]
  exact dropped

/-- Readers of a removed node read its replacement instead. -/
theorem nodes_drop_redirect {graph : Graph} (wellFormed : graph.WellFormed)
    {before after : List Node} {node : Node} (split : graph.nodes = before ++ node :: after)
    (unread : ∀ other ∈ before, node.id ∉ other.inputs) (new : Arg) :
    ((graph.redirect node.id new).drop node.id).nodes =
      before ++ after.map (Node.redirect node.id new) := by
  rw [nodes_drop_redirect_map wellFormed split, List.map_append,
    Node.map_redirect_of_not_mem unread]

theorem WellFormed.supersede {graph : Graph} (wellFormed : graph.WellFormed) (old : NodeId)
    (instruction : Instruction) : (graph.supersede old instruction).WellFormed :=
  ((((wellFormed.moveTo (some old)).emit instruction none).moveTo
    graph.insertionPoint).redirect old _).drop old

/-- The new node stands where the old one stood, and is read in its place. -/
theorem nodes_supersede {graph : Graph} (wellFormed : graph.WellFormed)
    {before after : List Node} {node : Node} (split : graph.nodes = before ++ node :: after)
    (unread : ∀ other ∈ before, node.id ∉ other.inputs) {instruction : Instruction}
    (unreadHere : node.id ∉ instruction.inputs) :
    (graph.supersede node.id instruction).nodes =
      before ++ graph.newNode instruction none ::
        after.map (Node.redirect node.id (.ref graph.nextId)) := by
  have opened := wellFormed.moveTo (some node.id)
  have placed := ((gap_before split).emit opened instruction none).nodes_eq
  have unreadBoth : ∀ other ∈ before ++ [graph.newNode instruction none],
      node.id ∉ other.inputs := by
    intro other member
    rcases List.mem_append.mp member with earlier | new
    · exact unread other earlier
    · obtain rfl := List.mem_singleton.mp new
      exact unreadHere
  have emitted : (graph.emitBefore node.id instruction).nodes =
      (before ++ [graph.newNode instruction none]) ++ node :: after := placed
  have wellEmitted : (graph.emitBefore node.id instruction).WellFormed :=
    (opened.emit instruction none).moveTo graph.insertionPoint
  rw [Graph.supersede, nodes_drop_redirect wellEmitted emitted unreadBoth, List.append_assoc]
  rfl

end Graph

end OpGraph
