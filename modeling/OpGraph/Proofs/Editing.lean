import OpGraph.Graph.ModuleCalls
import OpGraph.Proofs.Identity

/-!
# Edits of graphs

A script is a sequence of operations on a graph, in which any part may place its new nodes before a
node of its own choice.  `Script.run` carries it out and lists the creations, and `Script.graphs`
lists the graphs that come about on the way, those inside such parts included.

An edit creates a node, changes nodes in their places, removes a node, or leaves the graph as it is
when it fails (`Graph.Edited`).  Hence identities are handed out in order, and a node that is gone
does not come back (`Graph.Precedes`).
-/

namespace OpGraph

/-- An operation on a graph. -/
inductive Edit where
  /-- Create a node. -/
  | create (instruction : Instruction) (hint : Option String)
  /-- Create a copy of a node with its references looked up. -/
  | copy (node : Node) (image : NodeId → Except Failure Arg)
  /-- Change what is held at a node, its record for instance. -/
  | overwrite (id : NodeId) (change : Node → Node)
  /-- Let every reader of a node read something else. -/
  | redirect (old : NodeId) (new : Arg)
  /-- Remove a node that no node reads. -/
  | erase (id : NodeId)

/-- The creation of a node: the identity handed out, and the base of the name. -/
structure Creation where
  id : NodeId
  base : String
deriving DecidableEq, Repr

namespace Graph

/-- The graph after an operation, which is the same graph if the operation failed. -/
def orSame (graph : Graph) : Except Failure Graph → Graph
  | .ok changed => changed
  | .error _ => graph

/-- Carry out an edit. -/
def edit (graph : Graph) : Edit → Graph
  | .create instruction hint => graph.emit instruction hint
  | .copy node image => graph.orSame (graph.emitCopy node image)
  | .overwrite id change => graph.orSame (graph.modify id change)
  | .redirect old new => graph.redirect old new
  | .erase id => graph.orSame (graph.erase id)

/-- The nodes that an edit creates. -/
def creations (graph : Graph) : Edit → List Creation
  | .create instruction hint => [⟨graph.nextId, baseName instruction.op hint⟩]
  | .copy node image =>
    if (graph.emitCopy node image).isOk then [⟨graph.nextId, baseName node.op node.copyHint⟩]
    else []
  | _ => []

end Graph

/-- Edits in sequence. -/
inductive Script where
  /-- Nothing is left to do. -/
  | done
  /-- An edit, and what follows. -/
  | edit (first : Edit) (rest : Script)
  /-- Edits that place new nodes before `anchor`, and what follows. -/
  | before (anchor : NodeId) (inner rest : Script)

namespace Script

/-- Carry out a script, listing what is created. -/
def run : Script → Graph → Graph × List Creation
  | done, graph => (graph, [])
  | edit first rest, graph =>
    let (final, later) := rest.run (graph.edit first)
    (final, graph.creations first ++ later)
  | before anchor inner rest, graph =>
    let (left, created) := graph.insertingBefore anchor inner.run
    let (final, later) := rest.run left
    (final, created ++ later)

/-- The graphs that come about while a script is carried out, from the first to the last. -/
def graphs : Script → Graph → List Graph
  | done, graph => [graph]
  | edit first rest, graph => graph :: rest.graphs (graph.edit first)
  | before anchor inner rest, graph =>
    graph :: inner.graphs { graph with insertionPoint := some anchor } ++
      rest.graphs (graph.insertingBefore anchor inner.run).1

end Script

/-! ### What an edit does -/

namespace Graph

variable {graph changed : Graph} {created : List Creation} {edit : Edit}

/-- What an edit does to a graph, and which nodes it creates. -/
inductive Edited (graph : Graph) : Edit → Graph → List Creation → Prop where
  /-- A node is created. -/
  | created {edit : Edit} (instruction : Instruction) (hint : Option String) :
      Edited graph edit (graph.emit instruction hint)
        [⟨graph.nextId, baseName instruction.op hint⟩]
  /-- A node is overwritten. -/
  | overwritten (id : NodeId) (change : Node → Node) :
      Edited graph (.overwrite id change)
        { graph with
          nodes := graph.nodes.map fun node =>
            if node.id = id then { change node with id := id } else node } []
  /-- Readers are redirected. -/
  | redirected {edit : Edit} (old : NodeId) (new : Arg) :
      Edited graph edit (graph.redirect old new) []
  /-- A node is removed. -/
  | removed {edit : Edit} (id : NodeId) : Edited graph edit (graph.drop id) []
  /-- The edit fails. -/
  | failed {edit : Edit} : Edited graph edit graph []

theorem edited (graph : Graph) (edit : Edit) :
    Edited graph edit (graph.edit edit) (graph.creations edit) := by
  cases edit with
  | create instruction hint => exact .created instruction hint
  | copy node image =>
      rw [Graph.edit, creations]
      cases copied : graph.emitCopy node image with
      | error cause => exact .failed
      | ok next =>
          obtain ⟨instruction, found, same⟩ := Outcome.bind_eq_ok.mp copied
          obtain rfl := Except.ok.inj same
          rw [← Instruction.op_traverse found]
          exact .created instruction node.copyHint
  | overwrite id change =>
      rw [Graph.edit, modify]
      split
      · exact .overwritten id change
      · exact .failed
  | redirect old new => exact .redirected old new
  | erase id =>
      rw [Graph.edit]
      cases erased : graph.erase id with
      | error cause => exact .failed
      | ok next =>
          rw [eq_drop_of_erase erased]
          exact .removed id

/-- A copy is created unless one of its references cannot be looked up. -/
theorem edit_copy (graph : Graph) (node : Node) (image : NodeId → Except Failure Arg) :
    graph.edit (.copy node image) =
      match node.toInstruction.traverse image with
      | .ok instruction => graph.emit instruction node.copyHint
      | .error _ => graph := by
  rw [edit, emitCopy]
  cases node.toInstruction.traverse image with
  | ok instruction | error cause => rfl

/-- A node of the graph is overwritten. -/
theorem edit_overwrite (graph : Graph) (id : NodeId) (change : Node → Node) :
    graph.edit (.overwrite id change) =
      if (graph.find? id).isSome then
        { graph with
          nodes := graph.nodes.map fun node =>
            if node.id = id then { change node with id := id } else node }
      else graph := by
  rw [edit, modify, contains]
  split
  · rfl
  · rfl

/-- A node of the graph is erased unless it is read. -/
theorem edit_erase (graph : Graph) (id : NodeId) :
    graph.edit (.erase id) =
      if (graph.find? id).isSome && (graph.users id).isEmpty then graph.drop id else graph := by
  rw [edit, erase, get]
  cases graph.find? id with
  | none => rfl
  | some node =>
      cases graph.users id with
      | nil | cons reader further => rfl

/-! ### Identities along a script -/

/-- A relation between a graph and what becomes of it: every edit and every move of the insertion
point keep it. -/
structure Development (related : Graph → Graph → Prop) : Prop where
  refl (graph : Graph) : related graph graph
  trans {first second third : Graph} :
    related first second → related second third → related first third
  edit (graph : Graph) (edit : Edit) : related graph (graph.edit edit)
  moveTo (graph : Graph) (point : Option NodeId) :
    related graph { graph with insertionPoint := point }

/-- A graph comes about after another one: more nodes have been created, and no node that was gone
has come back. -/
structure Precedes (earlier later : Graph) : Prop where
  created_le : earlier.created ≤ later.created
  stays_gone : ∀ id ∈ later.ids, id.index < earlier.created → id ∈ earlier.ids

theorem Precedes.refl (graph : Graph) : graph.Precedes graph :=
  ⟨Nat.le_refl _, fun _ member _ => member⟩

theorem Precedes.trans {first second third : Graph} (early : first.Precedes second)
    (late : second.Precedes third) : first.Precedes third :=
  ⟨Nat.le_trans early.created_le late.created_le, fun id member counted =>
    early.stays_gone id
      (late.stays_gone id member (Nat.lt_of_lt_of_le counted early.created_le)) counted⟩

/-- A graph with no more nodes than another one, and as many created, comes after it. -/
theorem precedes_of_subset {earlier later : Graph} (created : later.created = earlier.created)
    (subset : later.ids ⊆ earlier.ids) : earlier.Precedes later :=
  ⟨Nat.le_of_eq created.symm, fun _ member _ => subset member⟩

theorem precedes_moveTo (graph : Graph) (point : Option NodeId) :
    graph.Precedes { graph with insertionPoint := point } :=
  precedes_of_subset rfl (List.Subset.refl _)

theorem ids_overwritten (graph : Graph) (id : NodeId) (change : Node → Node) :
    (graph.nodes.map fun node => if node.id = id then { change node with id := id } else node).map
      Node.id = graph.ids := by
  rw [List.map_map]
  refine List.map_congr_left fun node _ => ?_
  rw [Function.comp_apply]
  split
  · next same => exact same.symm
  · rfl

theorem Edited.precedes (edited : Edited graph edit changed created) :
    graph.Precedes changed := by
  cases edited with
  | created instruction hint =>
      refine ⟨Nat.le_succ _, fun id member counted => ?_⟩
      have ids := (nodes_emit_perm graph instruction hint).map Node.id
      rcases List.mem_cons.mp (ids.mem_iff.mp member) with rfl | old
      · exact absurd counted (Nat.lt_irrefl _)
      · exact old
  | overwritten id change =>
      refine precedes_of_subset rfl fun other member => ?_
      rw [ids, ids_overwritten] at member
      exact member
  | redirected old new =>
      refine precedes_of_subset rfl fun other member => ?_
      rw [ids_redirect] at member
      exact member
  | removed id => exact precedes_of_subset rfl (List.filter_sublist.map Node.id).subset
  | failed => exact .refl graph

theorem development_precedes : Development Precedes where
  refl := .refl
  trans := .trans
  edit graph edit := (graph.edited edit).precedes
  moveTo := precedes_moveTo

/-- The identities of some creations are the next ones of a graph, and the changed graph counts
them. -/
structure HandsOut (graph changed : Graph) (created : List Creation) : Prop where
  ids : created.map Creation.id = (List.range' graph.created created.length).map NodeId.mk
  count : changed.created = graph.created + created.length

theorem HandsOut.append {first middle last : Graph} {created later : List Creation}
    (early : first.HandsOut middle created) (late : middle.HandsOut last later) :
    first.HandsOut last (created ++ later) where
  ids := by
    rw [List.map_append, early.ids, late.ids, early.count, List.length_append, ← List.map_append,
      List.range'_append_1]
  count := by
    rw [late.count, early.count, List.length_append, Nat.add_assoc]

theorem Edited.handsOut (edited : Edited graph edit changed created) :
    graph.HandsOut changed created := by
  cases edited with
  | created | overwritten | redirected | removed | failed => exact ⟨rfl, rfl⟩

end Graph

namespace Script

section Development

variable {related : Graph → Graph → Prop} (development : Graph.Development related)

include development

theorem related_run (script : Script) (graph : Graph) : related graph (script.run graph).1 := by
  induction script generalizing graph with
  | done => exact development.refl graph
  | edit first rest ih => exact development.trans (development.edit graph first) (ih _)
  | before anchor inner rest ihInner ihRest =>
      have inside := development.trans (development.moveTo graph (some anchor)) (ihInner _)
      have left := development.trans inside (development.moveTo _ graph.insertionPoint)
      exact development.trans left (ihRest _)

/-- A scope as a whole develops the graph. -/
theorem related_insertingBefore (inner : Script) (graph : Graph) (anchor : NodeId) :
    related graph (graph.insertingBefore anchor inner.run).1 :=
  related_run development (before anchor inner done) graph

/-- What comes about within a scope develops into the graph that the scope leaves behind. -/
theorem related_left {inner : Script} {graph passed : Graph} {anchor : NodeId}
    (inside : related passed (inner.run { graph with insertionPoint := some anchor }).1) :
    related passed (graph.insertingBefore anchor inner.run).1 :=
  development.trans inside (development.moveTo _ graph.insertionPoint)

/-- The graphs of a script come about between its first and its last one. -/
theorem related_of_mem_graphs {script : Script} {graph passed : Graph}
    (member : passed ∈ script.graphs graph) :
    related graph passed ∧ related passed (script.run graph).1 := by
  induction script generalizing graph with
  | done =>
      obtain rfl := List.mem_singleton.mp member
      exact ⟨development.refl passed, development.refl passed⟩
  | edit first rest ih =>
      rcases List.mem_cons.mp member with rfl | later
      · exact ⟨development.refl passed, related_run development _ passed⟩
      · exact ⟨development.trans (development.edit graph first) (ih later).1, (ih later).2⟩
  | before anchor inner rest ihInner ihRest =>
      rcases List.mem_cons.mp member with rfl | member
      · exact ⟨development.refl passed, related_run development _ passed⟩
      · rcases List.mem_append.mp member with inside | later
        · exact ⟨development.trans (development.moveTo graph _) (ihInner inside).1,
            development.trans (related_left development (ihInner inside).2)
              (related_run development rest _)⟩
        · exact ⟨development.trans (related_insertingBefore development inner graph anchor)
            (ihRest later).1, (ihRest later).2⟩

/-- The graphs of a script come about one after the other. -/
theorem pairwise_related_graphs (script : Script) (graph : Graph) :
    (script.graphs graph).Pairwise related := by
  induction script generalizing graph with
  | done => exact List.pairwise_singleton _ _
  | edit first rest ih =>
      refine List.pairwise_cons.mpr ⟨fun passed later => ?_, ih _⟩
      exact development.trans (development.edit graph first)
        (related_of_mem_graphs development later).1
  | before anchor inner rest ihInner ihRest =>
      refine List.pairwise_cons.mpr ⟨fun passed later => ?_, ?_⟩
      · have member : passed ∈ (before anchor inner rest).graphs graph :=
          List.mem_cons_of_mem _ later
        exact (related_of_mem_graphs development member).1
      · refine List.pairwise_append.mpr ⟨ihInner _, ihRest _, ?_⟩
        intro inside isInside after isAfter
        exact development.trans
          (related_left development (related_of_mem_graphs development isInside).2)
          (related_of_mem_graphs development isAfter).1

end Development

theorem pairwise_precedes_graphs (script : Script) (graph : Graph) :
    (script.graphs graph).Pairwise Graph.Precedes :=
  pairwise_related_graphs Graph.development_precedes script graph

/-- A script hands out one identity after the other. -/
theorem handsOut_run (script : Script) (graph : Graph) :
    graph.HandsOut (script.run graph).1 (script.run graph).2 := by
  induction script generalizing graph with
  | done => exact ⟨rfl, rfl⟩
  | edit first rest ih => exact (graph.edited first).handsOut.append (ih _)
  | before anchor inner rest ihInner ihRest =>
      -- The insertion point has no part in what is handed out.
      obtain ⟨ids, count⟩ := ihInner { graph with insertionPoint := some anchor }
      have within : graph.HandsOut (graph.insertingBefore anchor inner.run).1
          (graph.insertingBefore anchor inner.run).2 := ⟨ids, count⟩
      exact within.append (ihRest _)

end Script

end OpGraph
