import OpGraph.Proofs.Editing

/-!
# Graphs as arenas

An arena keeps a graph in two parts, which are changed apart from each other: a slot for every node
created so far, which is empty once the node has been removed, and the identities of the nodes in
the order of their execution.

The two parts stay consistent along every script: the order lists the occupied slots, and each of
them once.  So an arena stands for a graph (`Arena.graph`), and edits of the arena stand for edits
of that graph (`Arena.Consistent.edit`).
-/

namespace OpGraph

/-- The nodes of a graph in slots, and the order of their execution. -/
structure Arena where
  /-- A slot for every node created so far, empty once the node has been removed. -/
  slots : List (Option Node) := []
  /-- The identities of the nodes in the order of their execution. -/
  order : List NodeId := []
  /-- The node before which new nodes are placed. -/
  insertionPoint : Option NodeId := none
  /-- How often each base name has been used. -/
  nameUses : Std.ExtTreeMap String Nat := ∅

namespace Arena

/-- The node in the slot of an identity. -/
def get? (arena : Arena) (id : NodeId) : Option Node :=
  arena.slots[id.index]?.join

/-- The graph that an arena stands for. -/
def graph (arena : Arena) : Graph where
  nodes := arena.order.filterMap arena.get?
  created := arena.slots.length
  insertionPoint := arena.insertionPoint
  nameUses := arena.nameUses

/-- The place of the next node in the order: that of the insertion point, or the end. -/
def nextPlace (arena : Arena) : Nat :=
  (arena.insertionPoint.bind fun anchor => arena.order.findIdx? (· = anchor)).getD
    arena.order.length

/-- Create a node in a new slot, and list it. -/
def create (arena : Arena) (instruction : Instruction) (hint : Option String) : Arena :=
  let base := Graph.baseName instruction.op hint
  { arena with
    slots := arena.slots ++ [some (arena.graph.newNode instruction hint)]
    order := arena.order.insertIdx arena.nextPlace ⟨arena.slots.length⟩
    nameUses := arena.nameUses.insert base (arena.nameUses.getD base 0 + 1) }

/-- Empty a slot, and strike its identity from the order. -/
def remove (arena : Arena) (id : NodeId) : Arena :=
  { arena with
    slots := arena.slots.set id.index none
    order := arena.order.filter (· ≠ id)
    insertionPoint := if arena.insertionPoint = some id then none else arena.insertionPoint }

/-- Carry out an edit; one that fails leaves the arena as it is. -/
def edit (arena : Arena) : Edit → Arena
  | .create instruction hint => arena.create instruction hint
  | .copy node image =>
    match node.toInstruction.traverse image with
    | .ok instruction => arena.create instruction node.copyHint
    | .error _ => arena
  | .overwrite id change =>
    if (arena.get? id).isSome then
      { arena with
        slots :=
          arena.slots.modify id.index (Option.map fun node => { change node with id := id }) }
    else arena
  | .redirect old new =>
    { arena with slots := arena.slots.map (Option.map (Node.redirect old new)) }
  | .erase id =>
    if (arena.get? id).isSome && (arena.graph.users id).isEmpty then arena.remove id else arena

/-- Place new nodes immediately before `anchor` for the extent of a change. -/
def insertingBefore (arena : Arena) (anchor : NodeId) (body : Arena → Arena) : Arena :=
  { body { arena with insertionPoint := some anchor } with
    insertionPoint := arena.insertionPoint }

end Arena

namespace Script

/-- Carry out a script on an arena. -/
def runArena : Script → Arena → Arena
  | done, arena => arena
  | edit first rest, arena => rest.runArena (arena.edit first)
  | before anchor inner rest, arena => rest.runArena (arena.insertingBefore anchor inner.runArena)

/-- The arenas that come about while a script is carried out, from the first to the last. -/
def arenas : Script → Arena → List Arena
  | done, arena => [arena]
  | edit first rest, arena => arena :: rest.arenas (arena.edit first)
  | before anchor inner rest, arena =>
    arena :: inner.arenas { arena with insertionPoint := some anchor } ++
      rest.arenas (arena.insertingBefore anchor inner.runArena)

end Script

/-! ### Consistent arenas -/

namespace Arena

variable {arena : Arena}

/-- The two parts of an arena agree. -/
structure Consistent (arena : Arena) : Prop where
  /-- No identity is listed twice. -/
  distinct : arena.order.Nodup
  /-- The identities of the occupied slots are listed, and no others. -/
  occupied : ∀ id, id ∈ arena.order ↔ (arena.get? id).isSome = true
  /-- A slot holds the node of its identity. -/
  labelled : ∀ id node, arena.get? id = some node → node.id = id

namespace Consistent

theorem exists_get? (consistent : arena.Consistent) {id : NodeId} (listed : id ∈ arena.order) :
    ∃ node, arena.get? id = some node ∧ node.id = id := by
  obtain ⟨node, found⟩ := Option.isSome_iff_exists.mp ((consistent.occupied id).mp listed)
  exact ⟨node, found, consistent.labelled id node found⟩

theorem ids_graph (consistent : arena.Consistent) : arena.graph.ids = arena.order := by
  have each : ∀ id ∈ arena.order, (arena.get? id).map Node.id = some id := by
    intro id listed
    obtain ⟨node, found, same⟩ := consistent.exists_get? listed
    rw [found, Option.map_some, same]
  show (arena.order.filterMap arena.get?).map Node.id = arena.order
  rw [List.map_filterMap, List.filterMap_congr each, List.filterMap_some]

theorem mem_nodes (consistent : arena.Consistent) {node : Node} :
    node ∈ arena.graph.nodes ↔ arena.get? node.id = some node := by
  constructor
  · intro member
    obtain ⟨id, -, found⟩ := List.mem_filterMap.mp member
    rw [consistent.labelled id node found, found]
  · intro found
    have listed := (consistent.occupied node.id).mpr (by rw [found]; rfl)
    exact List.mem_filterMap.mpr ⟨node.id, listed, found⟩

/-- A node is found in its slot. -/
theorem find?_graph (consistent : arena.Consistent) (id : NodeId) :
    arena.graph.find? id = arena.get? id := by
  cases found : arena.graph.find? id with
  | some node =>
      have same : node.id = id := by simpa using List.find?_some found
      rw [← same, consistent.mem_nodes.mp (List.mem_of_find?_eq_some found)]
  | none =>
      cases got : arena.get? id with
      | none => rfl
      | some node =>
          have same := consistent.labelled id node got
          have member := consistent.mem_nodes.mpr (same ▸ got)
          exact absurd same (by simpa using List.find?_eq_none.mp found node member)

theorem wellFormed (consistent : arena.Consistent) : arena.graph.WellFormed := by
  refine ⟨consistent.ids_graph ▸ consistent.distinct, fun id listed => ?_⟩
  rw [consistent.ids_graph] at listed
  obtain ⟨node, found, -⟩ := consistent.exists_get? listed
  by_contra outside
  rw [get?, List.getElem?_eq_none (Nat.le_of_not_lt outside)] at found
  cases found

end Consistent

/-! ### Edits of arenas -/

theorem get?_create (arena : Arena) (instruction : Instruction) (hint : Option String)
    (id : NodeId) :
    (arena.create instruction hint).get? id =
      if id = arena.graph.nextId then some (arena.graph.newNode instruction hint)
      else arena.get? id := by
  show (arena.slots ++ [some (arena.graph.newNode instruction hint)])[id.index]?.join = _
  split
  · next same =>
    rw [same]
    show (arena.slots ++ _)[arena.slots.length]?.join = _
    rw [List.getElem?_concat_length]
    rfl
  · next different =>
    have elsewhere : id.index ≠ arena.slots.length := fun same => different (NodeId.ext same)
    rw [get?]
    rcases Nat.lt_or_gt_of_ne elsewhere with within | outside
    · rw [List.getElem?_append_left within]
    · rw [List.getElem?_eq_none (by simpa using Nat.succ_le_of_lt outside),
        List.getElem?_eq_none (Nat.le_of_lt outside)]

theorem nextPlace_le (arena : Arena) : arena.nextPlace ≤ arena.order.length := by
  rw [nextPlace]
  cases place : arena.insertionPoint.bind fun anchor => arena.order.findIdx? (· = anchor) with
  | none => exact Nat.le_refl _
  | some index =>
      obtain ⟨anchor, -, found⟩ := Option.bind_eq_some_iff.mp place
      obtain ⟨inRange, -⟩ := List.findIdx?_eq_some_iff_getElem.mp found
      exact Nat.le_of_lt inRange

/-- Listing a new node at its place puts it at the same place among the nodes. -/
theorem filterMap_insertIdx {get : NodeId → Option Node} {order : List NodeId} {id anchor : NodeId}
    {new : Node} (found : get id = some new)
    (held : ∀ other ∈ order, ∃ node, get other = some node ∧ node.id = other) :
    (order.insertIdx ((order.findIdx? (· = anchor)).getD order.length) id).filterMap get =
      Graph.placeBefore anchor new (order.filterMap get) := by
  induction order with
  | nil => simp [found, Graph.placeBefore]
  | cons first rest ih =>
      obtain ⟨node, isFirst, same⟩ := held first List.mem_cons_self
      have further := ih fun other member => held other (List.mem_cons_of_mem _ member)
      rw [List.filterMap_cons_some isFirst, Graph.placeBefore, same, List.findIdx?_cons]
      by_cases reached : first = anchor
      · rw [if_pos reached, if_pos (decide_eq_true reached), Option.getD_some, List.insertIdx_zero,
          List.filterMap_cons_some found, List.filterMap_cons_some isFirst]
      · rw [if_neg reached, if_neg (by simpa using reached), List.length_cons,
          Option.getD_map Nat.succ, List.insertIdx_succ_cons, List.filterMap_cons_some isFirst,
          further]

namespace Consistent

theorem graph_create (consistent : arena.Consistent) (instruction : Instruction)
    (hint : Option String) :
    (arena.create instruction hint).graph = arena.graph.emit instruction hint := by
  have fresh : arena.graph.nextId ∉ arena.order :=
    consistent.ids_graph ▸ consistent.wellFormed.nextId_not_mem
  have found : (arena.create instruction hint).get? arena.graph.nextId =
      some (arena.graph.newNode instruction hint) := by
    rw [get?_create, if_pos rfl]
  have kept : ∀ id ∈ arena.order, (arena.create instruction hint).get? id = arena.get? id := by
    intro id listed
    have different : id ≠ arena.graph.nextId := fun same => fresh (same ▸ listed)
    rw [get?_create, if_neg different]
  have nodes : (arena.create instruction hint).graph.nodes =
      arena.graph.place (arena.graph.newNode instruction hint) := by
    show (arena.order.insertIdx arena.nextPlace arena.graph.nextId).filterMap
      (arena.create instruction hint).get? = _
    cases point : arena.insertionPoint with
    | none =>
        have atEnd : arena.nextPlace = arena.order.length := by rw [nextPlace, point]; rfl
        rw [Graph.place, show arena.graph.insertionPoint = none from point, atEnd,
          List.insertIdx_length_self, List.filterMap_append, List.filterMap_congr kept,
          List.filterMap_cons_some found]
        rfl
    | some anchor =>
        have ahead : arena.nextPlace =
            (arena.order.findIdx? (· = anchor)).getD arena.order.length := by
          rw [nextPlace, point]; rfl
        rw [Graph.place, show arena.graph.insertionPoint = some anchor from point, ahead,
          filterMap_insertIdx found fun id listed => kept id listed ▸ consistent.exists_get? listed,
          List.filterMap_congr kept]
        rfl
  have count : (arena.create instruction hint).graph.created = arena.graph.created + 1 :=
    List.length_append
  show (⟨(arena.create instruction hint).graph.nodes, (arena.create instruction hint).graph.created,
    _, _⟩ : Graph) = _
  rw [nodes, count]
  rfl

theorem create (consistent : arena.Consistent) (instruction : Instruction)
    (hint : Option String) : (arena.create instruction hint).Consistent := by
  have fresh : arena.graph.nextId ∉ arena.order :=
    consistent.ids_graph ▸ consistent.wellFormed.nextId_not_mem
  have listed : (arena.create instruction hint).order.Perm
      (arena.graph.nextId :: arena.order) := List.perm_insertIdx _ _ (nextPlace_le arena)
  constructor
  · rw [listed.nodup_iff, List.nodup_cons]
    exact ⟨fresh, consistent.distinct⟩
  · intro id
    rw [listed.mem_iff, List.mem_cons, get?_create, consistent.occupied id]
    by_cases new : id = arena.graph.nextId
    · simp [new]
    · simp [new]
  · intro id node found
    rw [get?_create] at found
    split at found
    · next new =>
      obtain rfl := Option.some.inj found
      exact new.symm
    · exact consistent.labelled id node found

/-- Changing nodes in their slots changes them in their places. -/
theorem mapped (consistent : arena.Consistent) {slots : List (Option Node)} {step : Node → Node}
    (count : slots.length = arena.slots.length)
    (got : ∀ id : NodeId, slots[id.index]?.join = (arena.get? id).map step)
    (keepsId : ∀ node, (step node).id = node.id) :
    ({ arena with slots := slots } : Arena).Consistent ∧
      ({ arena with slots := slots } : Arena).graph =
        { arena.graph with nodes := arena.graph.nodes.map step } := by
  refine ⟨⟨consistent.distinct, fun id => ?_, fun id node found => ?_⟩, ?_⟩
  · show id ∈ arena.order ↔ slots[id.index]?.join.isSome = true
    rw [got, Option.isSome_map, consistent.occupied id]
  · obtain ⟨old, isOld, rfl⟩ := Option.map_eq_some_iff.mp ((got id).symm.trans found)
    rw [keepsId, consistent.labelled id old isOld]
  · show (⟨arena.order.filterMap fun id => slots[id.index]?.join, slots.length, _, _⟩ : Graph) =
      ⟨(arena.order.filterMap arena.get?).map step, arena.slots.length, _, _⟩
    rw [List.map_filterMap, List.filterMap_congr fun id _ => got id, count]
    rfl

theorem redirect (consistent : arena.Consistent) (old : NodeId) (new : Arg) :
    (arena.edit (.redirect old new)).Consistent ∧
      (arena.edit (.redirect old new)).graph = arena.graph.edit (.redirect old new) := by
  refine consistent.mapped (List.length_map _) (fun id => ?_) fun _ => rfl
  rw [List.getElem?_map, get?]
  cases arena.slots[id.index]? with
  | none | some slot => rfl

theorem overwrite (consistent : arena.Consistent) (id : NodeId) (change : Node → Node) :
    (arena.edit (.overwrite id change)).Consistent ∧
      (arena.edit (.overwrite id change)).graph = arena.graph.edit (.overwrite id change) := by
  rw [Graph.edit_overwrite, consistent.find?_graph, edit]
  split
  · refine consistent.mapped (List.length_modify _ _ _) (fun other => ?_) fun node => ?_
    · rw [List.getElem?_modify, get?]
      cases slot : arena.slots[other.index]? with
      | none => rfl
      | some held =>
          cases held with
          | none => by_cases here : id.index = other.index <;> simp [here]
          | some node =>
              have same : node.id = other :=
                consistent.labelled other node (by rw [get?, slot]; rfl)
              have here : id.index = other.index ↔ other = id :=
                ⟨fun equal => NodeId.ext equal.symm, fun equal => equal ▸ rfl⟩
              by_cases reached : other = id
              · simp [same, reached]
              · simp [here, same, reached]
    · split
      · next same => exact same.symm
      · rfl
  · exact ⟨consistent, rfl⟩

end Consistent

theorem get?_remove (arena : Arena) (id other : NodeId) :
    (arena.remove id).get? other = if other = id then none else arena.get? other := by
  show (arena.slots.set id.index none)[other.index]?.join = _
  rw [List.getElem?_set, get?]
  by_cases same : other = id
  · rw [if_pos (congrArg NodeId.index same.symm), if_pos same]
    split <;> rfl
  · rw [if_neg fun equal => same (NodeId.ext equal.symm), if_neg same]

namespace Consistent

theorem remove (consistent : arena.Consistent) (id : NodeId) :
    (arena.remove id).Consistent ∧ (arena.remove id).graph = arena.graph.drop id := by
  refine ⟨⟨consistent.distinct.filter _, fun other => ?_, fun other node found => ?_⟩, ?_⟩
  · rw [get?_remove]
    show other ∈ arena.order.filter (· ≠ id) ↔ _
    by_cases same : other = id
    · simp [same]
    · simp [same, consistent.occupied other]
  · rw [get?_remove] at found
    split at found
    · cases found
    · exact consistent.labelled other node found
  · have nodes : (arena.order.filter (· ≠ id)).filterMap (arena.remove id).get? =
        (arena.order.filterMap arena.get?).filter fun node => node.id ≠ id := by
      rw [List.filterMap_filter, List.filter_filterMap]
      refine List.filterMap_congr fun other listed => ?_
      obtain ⟨node, found, same⟩ := consistent.exists_get? listed
      rw [get?_remove, found]
      by_cases struck : other = id
      · simp [struck, same, Option.filter]
      · simp [struck, same, Option.filter]
    show (⟨(arena.order.filter (· ≠ id)).filterMap (arena.remove id).get?,
      (arena.slots.set id.index none).length, _, _⟩ : Graph) = _
    rw [nodes, List.length_set]
    rfl

/-- An edit keeps an arena consistent, and does to the graph what it does to the arena. -/
theorem edit (consistent : arena.Consistent) (edit : Edit) :
    (arena.edit edit).Consistent ∧ (arena.edit edit).graph = arena.graph.edit edit := by
  cases edit with
  | create instruction hint =>
      exact ⟨consistent.create instruction hint, consistent.graph_create instruction hint⟩
  | copy node image =>
      rw [Graph.edit_copy, Arena.edit]
      cases node.toInstruction.traverse image with
      | ok instruction =>
          exact ⟨consistent.create instruction _, consistent.graph_create instruction _⟩
      | error cause => exact ⟨consistent, rfl⟩
  | overwrite id change => exact consistent.overwrite id change
  | redirect old new => exact consistent.redirect old new
  | erase id =>
      rw [Graph.edit_erase, Arena.edit, consistent.find?_graph]
      split
      · exact consistent.remove id
      · exact ⟨consistent, rfl⟩

/-- The insertion point plays no part in being consistent. -/
theorem moveTo (consistent : arena.Consistent) (point : Option NodeId) :
    ({ arena with insertionPoint := point } : Arena).Consistent :=
  ⟨consistent.distinct, consistent.occupied, consistent.labelled⟩

/-- The occupied slots are as many as the nodes. -/
theorem countP_slots (consistent : arena.Consistent) :
    arena.slots.countP Option.isSome = arena.graph.size := by
  have inSlots : ∀ id : NodeId, (arena.get? id).isSome = true → id.index < arena.slots.length := by
    intro id occupied
    exact consistent.wellFormed.counted id
      (consistent.ids_graph ▸ (consistent.occupied id).mpr occupied)
  have listed : arena.order.Perm
      (((List.range arena.slots.length).map NodeId.mk).filter fun id =>
        (arena.get? id).isSome) := by
    have distinct : ((List.range arena.slots.length).map NodeId.mk).Nodup :=
      List.nodup_range.map fun _ _ same => congrArg NodeId.index same
    rw [List.perm_ext_iff_of_nodup consistent.distinct (distinct.filter _)]
    intro id
    rw [List.mem_filter, List.mem_map, consistent.occupied id]
    exact ⟨fun occupied => ⟨⟨id.index, List.mem_range.mpr (inSlots id occupied), rfl⟩, occupied⟩,
      And.right⟩
  have slots : arena.slots =
      ((List.range arena.slots.length).map NodeId.mk).map arena.get? := by
    refine List.ext_getElem (by simp) fun index inRange _ => ?_
    simp [get?, List.getElem?_eq_getElem inRange]
  calc arena.slots.countP Option.isSome
      = ((List.range arena.slots.length).map NodeId.mk).countP fun id =>
          (arena.get? id).isSome := by
        nth_rewrite 1 [slots]
        rw [List.countP_map]
        rfl
    _ = arena.order.length := by rw [listed.length_eq, List.countP_eq_length_filter]
    _ = arena.graph.size := by rw [← consistent.ids_graph, Graph.ids, List.length_map, Graph.size]

end Consistent

theorem consistent_empty : ({} : Arena).Consistent where
  distinct := List.nodup_nil
  occupied _ := by simp [get?]
  labelled _ _ found := by simp [get?] at found

end Arena

/-! ### Scripts on arenas -/

namespace Script

variable {arena : Arena}

theorem graph_insertingBefore {inner : Script} {anchor : NodeId}
    (same : (inner.runArena { arena with insertionPoint := some anchor }).graph =
      (inner.run { arena.graph with insertionPoint := some anchor }).1) :
    (arena.insertingBefore anchor inner.runArena).graph =
      (arena.graph.insertingBefore anchor inner.run).1 :=
  congrArg (fun graph : Graph => { graph with insertionPoint := arena.insertionPoint }) same

/-- A script keeps an arena consistent, and does to the graph what it does to the arena. -/
theorem consistent_runArena (script : Script) (consistent : arena.Consistent) :
    (script.runArena arena).Consistent ∧
      (script.runArena arena).graph = (script.run arena.graph).1 := by
  induction script generalizing arena with
  | done => exact ⟨consistent, rfl⟩
  | edit first rest ih =>
      obtain ⟨kept, same⟩ := consistent.edit first
      rw [run, ← same]
      exact ih kept
  | before anchor inner rest ihInner ihRest =>
      obtain ⟨kept, same⟩ := ihInner (consistent.moveTo (some anchor))
      show _ ∧ _ = (rest.run (arena.graph.insertingBefore anchor inner.run).1).1
      rw [← graph_insertingBefore same]
      exact ihRest (kept.moveTo arena.insertionPoint)

/-- A script that starts from nothing leaves a well-formed graph. -/
theorem wellFormed_run (script : Script) : (script.run {}).1.WellFormed := by
  obtain ⟨consistent, same⟩ := script.consistent_runArena Arena.consistent_empty
  exact same ▸ consistent.wellFormed

/-- The arenas of a script are consistent, and stand for the graphs of the script. -/
theorem consistent_arenas (script : Script) (consistent : arena.Consistent) :
    (∀ passed ∈ script.arenas arena, passed.Consistent) ∧
      (script.arenas arena).map Arena.graph = script.graphs arena.graph := by
  induction script generalizing arena with
  | done => exact ⟨List.forall_mem_singleton.mpr consistent, rfl⟩
  | edit first rest ih =>
      obtain ⟨kept, same⟩ := consistent.edit first
      obtain ⟨later, graphs⟩ := ih kept
      refine ⟨List.forall_mem_cons.mpr ⟨consistent, later⟩, ?_⟩
      rw [arenas, List.map_cons, graphs, same]
      rfl
  | before anchor inner rest ihInner ihRest =>
      have entered := consistent.moveTo (some anchor)
      obtain ⟨kept, same⟩ := inner.consistent_runArena entered
      obtain ⟨inside, innerGraphs⟩ := ihInner entered
      obtain ⟨later, laterGraphs⟩ := ihRest (kept.moveTo arena.insertionPoint)
      refine ⟨List.forall_mem_cons.mpr ⟨consistent, List.forall_mem_append.mpr ⟨inside, later⟩⟩, ?_⟩
      rw [graphs, ← graph_insertingBefore same]
      show _ :: List.map Arena.graph (_ ++ _) = _ :: (_ ++ _)
      rw [List.map_append, innerGraphs]
      exact congrArg (fun late => _ :: (_ ++ late)) laterGraphs

end Script

/-! ### Live nodes -/

namespace Graph

theorem contains_eq_true_iff {graph : Graph} {id : NodeId} :
    graph.contains id = true ↔ id ∈ graph.ids := by
  rw [contains, find?, List.find?_isSome, ids, List.mem_map]
  simp only [decide_eq_true_eq]

/-- The live nodes are those with a place. -/
theorem isSome_position? (graph : Graph) (id : NodeId) :
    (graph.position? id).isSome = graph.contains id := by
  rw [position?, List.findIdx?_isSome, Bool.eq_iff_iff, List.any_eq_true, contains, find?,
    List.find?_isSome]

theorem idAt?_position? {graph : Graph} {id : NodeId} {index : Nat}
    (found : graph.position? id = some index) : graph.idAt? index = some id := by
  obtain ⟨inRange, same, -⟩ := List.findIdx?_eq_some_iff_getElem.mp found
  rw [idAt?, List.getElem?_eq_getElem inRange, Option.map_some, of_decide_eq_true same]

/-- A live node is listed once, and another identity not at all. -/
theorem WellFormed.count_ids {graph : Graph} (wellFormed : graph.WellFormed) (id : NodeId) :
    graph.ids.count id = if graph.contains id then 1 else 0 := by
  split
  · next live => exact List.count_eq_one_of_mem wellFormed.distinct (contains_eq_true_iff.mp live)
  · next gone => exact List.count_eq_zero.mpr (contains_eq_true_iff.not.mp gone)

/-- A node that is gone in a later graph stays gone. -/
theorem Precedes.stays_removed {first second third : Graph} (wellFormed : first.WellFormed)
    (early : first.Precedes second) (late : second.Precedes third) {id : NodeId}
    (live : id ∈ first.ids) (gone : id ∉ second.ids) : id ∉ third.ids := by
  intro back
  have counted := Nat.lt_of_lt_of_le (wellFormed.counted id live) early.created_le
  exact gone (late.stays_gone id back counted)

end Graph

/-- Along every script from the empty graph, the order of an arena lists the occupied slots once
each, so that listing the nodes, counting them and asking for places agree on which nodes are live.
No identity is handed out twice, and an identity that was live and is gone stays gone. -/
theorem order_lists_occupied_slots (script : Script) :
    (script.arenas {}).map Arena.graph = script.graphs {} ∧
    (∀ arena ∈ script.arenas {},
      arena.order.Nodup ∧
      (∀ id, id ∈ arena.order ↔ (arena.get? id).isSome = true) ∧
      (∀ id, arena.graph.find? id = arena.get? id) ∧
      arena.graph.ids = arena.order ∧
      arena.graph.size = arena.slots.countP Option.isSome ∧
      ∀ id,
        arena.graph.ids.count id = (if arena.graph.contains id then 1 else 0) ∧
        (arena.graph.position? id).isSome = arena.graph.contains id ∧
        ∀ index, arena.graph.position? id = some index → arena.graph.idAt? index = some id) ∧
    ((script.run {}).2.map Creation.id).Nodup ∧
    ∀ first second third, [first, second, third].Sublist (script.graphs {}) →
      ∀ id ∈ first.ids, id ∉ second.ids → id ∉ third.ids := by
  obtain ⟨consistent, graphs⟩ := script.consistent_arenas Arena.consistent_empty
  change _ = script.graphs {} at graphs
  refine ⟨graphs, fun arena passed => ?_, ?_, fun first second third inOrder id live gone => ?_⟩
  · have parts := consistent arena passed
    exact ⟨parts.distinct, parts.occupied, parts.find?_graph, parts.ids_graph,
      parts.countP_slots.symm, fun id => ⟨parts.wellFormed.count_ids id,
        arena.graph.isSome_position? id, fun index => Graph.idAt?_position?⟩⟩
  · rw [(script.handsOut_run {}).ids]
    have distinct : (List.range' 0 (script.run {}).2.length).Nodup := List.nodup_range'
    exact distinct.map fun _ _ same => congrArg NodeId.index same
  · have ordered := (script.pairwise_precedes_graphs {}).sublist inOrder
    have wellFormed : first.WellFormed := by
      have member := inOrder.subset List.mem_cons_self
      rw [← graphs] at member
      obtain ⟨arena, passed, rfl⟩ := List.mem_map.mp member
      exact (consistent arena passed).wellFormed
    obtain ⟨fromFirst, ordered⟩ := List.pairwise_cons.mp ordered
    obtain ⟨fromSecond, -⟩ := List.pairwise_cons.mp ordered
    exact (fromFirst second List.mem_cons_self).stays_removed wellFormed
      (fromSecond third List.mem_cons_self) live gone

end OpGraph
