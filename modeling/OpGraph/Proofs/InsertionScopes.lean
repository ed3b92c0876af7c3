import OpGraph.Proofs.Arena

/-!
# Insertion scopes

While a script runs, every edit belongs to an innermost scope, whose anchor the insertion point
follows: it is that anchor, or nothing once the anchor has been removed inside the scope
(`Graph.Tracks`).  So a new node is placed before the anchor while that is in the graph, and last
otherwise (`Graph.Placed`).

Edits never move nodes.  The nodes that a later graph has kept from an earlier one form a sublist
of the earlier graph (`Graph.KeepsOrder`), which is a transitive relation and therefore holds along
every run.
-/

namespace OpGraph

namespace Graph

variable {graph changed earlier later : Graph} {edit : Edit} {created : List Creation}

theorem Edited.wellFormed (edited : Edited graph edit changed created)
    (wellFormed : graph.WellFormed) : changed.WellFormed := by
  cases edited with
  | created instruction hint => exact wellFormed.emit instruction hint
  | overwritten id change =>
      constructor
      · rw [ids, ids_overwritten]
        exact wellFormed.distinct
      · intro other member
        rw [ids, ids_overwritten] at member
        exact wellFormed.counted other member
  | redirected old new => exact wellFormed.redirect old new
  | removed id => exact wellFormed.drop id
  | failed => exact wellFormed

theorem development_wellFormed :
    Development fun graph later => graph.WellFormed → later.WellFormed where
  refl _ := id
  trans early late wellFormed := late (early wellFormed)
  edit graph edit := (graph.edited edit).wellFormed
  moveTo _ point wellFormed := wellFormed.moveTo point

/-! ### Order -/

/-- What a later graph has kept of an earlier one stands in the old order. -/
structure KeepsOrder (earlier later : Graph) : Prop where
  created_le : earlier.created ≤ later.created
  kept : (later.ids.filter fun id => id.index < earlier.created).Sublist earlier.ids

theorem keepsOrder_of_sublist (created : later.created = earlier.created)
    (sublist : later.ids.Sublist earlier.ids) : earlier.KeepsOrder later :=
  ⟨Nat.le_of_eq created.symm, List.filter_sublist.trans sublist⟩

theorem KeepsOrder.refl (graph : Graph) : graph.KeepsOrder graph :=
  keepsOrder_of_sublist rfl (List.Sublist.refl _)

theorem keepsOrder_moveTo (graph : Graph) (point : Option NodeId) :
    graph.KeepsOrder { graph with insertionPoint := point } :=
  keepsOrder_of_sublist rfl (List.Sublist.refl _)

theorem KeepsOrder.trans {first second third : Graph} (early : first.KeepsOrder second)
    (late : second.KeepsOrder third) : first.KeepsOrder third := by
  refine ⟨Nat.le_trans early.created_le late.created_le, ?_⟩
  -- What was there at first was there later on, so it is among what the second graph passed on.
  have narrowed : (third.ids.filter fun id => id.index < first.created) =
      (third.ids.filter fun id => id.index < second.created).filter
        fun id => id.index < first.created := by
    rw [List.filter_filter]
    refine List.filter_congr fun id _ => ?_
    rw [Bool.eq_iff_iff, Bool.and_eq_true, decide_eq_true_eq, decide_eq_true_eq]
    exact ⟨fun old => ⟨old, Nat.lt_of_lt_of_le old early.created_le⟩, And.left⟩
  rw [narrowed]
  exact (late.kept.filter _).trans early.kept

theorem filter_placeBefore {anchor : NodeId} {new : Node} {keep : Node → Bool}
    (dropped : keep new = false) (nodes : List Node) :
    (placeBefore anchor new nodes).filter keep = nodes.filter keep := by
  induction nodes with
  | nil => simp [placeBefore, dropped]
  | cons node rest ih =>
      rw [placeBefore]
      split
      · rw [List.filter_cons, dropped, if_neg Bool.false_ne_true]
      · rw [List.filter_cons, List.filter_cons, ih]

/-- A new node is put between the others. -/
theorem filter_ids_emit (graph : Graph) (instruction : Instruction) (hint : Option String)
    {keep : NodeId → Bool} (dropped : keep graph.nextId = false) :
    (graph.emit instruction hint).ids.filter keep = graph.ids.filter keep := by
  have new : (keep ∘ Node.id) (graph.newNode instruction hint) = false := dropped
  have nodes : (graph.place (graph.newNode instruction hint)).filter (keep ∘ Node.id) =
      graph.nodes.filter (keep ∘ Node.id) := by
    rw [place]
    split
    · exact filter_placeBefore new _
    · rw [List.filter_append, List.filter_singleton, new, Bool.cond_false, List.append_nil]
  rw [ids, ids, List.filter_map, List.filter_map, ← nodes]
  rfl

theorem Edited.keepsOrder (edited : Edited graph edit changed created) :
    graph.KeepsOrder changed := by
  cases edited with
  | created instruction hint =>
      refine ⟨Nat.le_succ _, ?_⟩
      rw [filter_ids_emit _ _ _ (decide_eq_false (Nat.lt_irrefl _))]
      exact List.filter_sublist
  | overwritten id change =>
      refine keepsOrder_of_sublist rfl ?_
      rw [ids, ids_overwritten]
  | redirected old new =>
      refine keepsOrder_of_sublist rfl ?_
      rw [ids_redirect]
  | removed id => exact keepsOrder_of_sublist rfl (List.filter_sublist.map Node.id)
  | failed => exact .refl graph

theorem development_keepsOrder : Development KeepsOrder where
  refl := .refl
  trans := .trans
  edit graph edit := (graph.edited edit).keepsOrder
  moveTo := keepsOrder_moveTo

/-- One node stands before another one. -/
def StandsBefore (graph : Graph) (first second : NodeId) : Prop :=
  [first, second].Sublist graph.ids

instance (graph : Graph) (first second : NodeId) : Decidable (graph.StandsBefore first second) :=
  inferInstanceAs (Decidable ([first, second].Sublist graph.ids))

theorem StandsBefore.mem_left {first second : NodeId} (inOrder : graph.StandsBefore first second) :
    first ∈ graph.ids :=
  inOrder.subset List.mem_cons_self

theorem StandsBefore.mem_right {first second : NodeId} (inOrder : graph.StandsBefore first second) :
    second ∈ graph.ids :=
  inOrder.subset (List.mem_cons_of_mem _ List.mem_cons_self)

theorem not_sublist_of_sublist {α : Type} {items : List α} (distinct : items.Nodup)
    {first second : α} (inOrder : [first, second].Sublist items) :
    ¬[second, first].Sublist items := by
  intro reversed
  induction items with
  | nil => cases inOrder
  | cons item rest ih =>
      obtain ⟨fresh, distinct⟩ := List.nodup_cons.mp distinct
      cases inOrder with
      | cons _ inOrder =>
          cases reversed with
          | cons _ reversed => exact ih distinct inOrder reversed
          | cons_cons _ _ => exact fresh (inOrder.subset (by simp))
      | cons_cons _ later =>
          cases reversed with
          | cons _ reversed => exact fresh (reversed.subset (by simp))
          | cons_cons _ _ => exact fresh (later.subset (by simp))

theorem StandsBefore.asymm (wellFormed : graph.WellFormed) {first second : NodeId}
    (inOrder : graph.StandsBefore first second) : ¬graph.StandsBefore second first :=
  not_sublist_of_sublist wellFormed.distinct inOrder

theorem standsBefore_or {first second : NodeId} (isFirst : first ∈ graph.ids)
    (isSecond : second ∈ graph.ids) (different : first ≠ second) :
    graph.StandsBefore first second ∨ graph.StandsBefore second first := by
  obtain ⟨before, after, split⟩ := List.append_of_mem isFirst
  rw [StandsBefore, StandsBefore, split]
  rw [split, List.mem_append, List.mem_cons] at isSecond
  rcases isSecond with isBefore | same | isAfter
  · right
    show ([second] ++ [first]).Sublist _
    exact (List.singleton_sublist.mpr isBefore).append
      (List.singleton_sublist.mpr List.mem_cons_self)
  · exact absurd same.symm different
  · refine Or.inl (List.Sublist.trans ?_ (List.sublist_append_right before _))
    exact (List.singleton_sublist.mpr isAfter).cons_cons first

/-- Nodes of both graphs stand in the same order in both. -/
theorem KeepsOrder.standsBefore_iff (keeps : earlier.KeepsOrder later)
    (wellFormed : earlier.WellFormed) {first second : NodeId} (isFirst : first ∈ earlier.ids)
    (isSecond : second ∈ earlier.ids) (firstKept : first ∈ later.ids)
    (secondKept : second ∈ later.ids) :
    earlier.StandsBefore first second ↔ later.StandsBefore first second := by
  have back : ∀ {left right : NodeId}, left ∈ earlier.ids → right ∈ earlier.ids →
      later.StandsBefore left right → earlier.StandsBefore left right := by
    intro left right isLeft isRight inOrder
    have both : ∀ id ∈ [left, right], decide (id.index < earlier.created) = true := by
      simp [wellFormed.counted left isLeft, wellFormed.counted right isRight]
    have filtered := inOrder.filter fun id => decide (id.index < earlier.created)
    rw [List.filter_eq_self.mpr both] at filtered
    exact filtered.trans keeps.kept
  refine ⟨fun inOrder => ?_, back isFirst isSecond⟩
  have different : first ≠ second := by
    rintro rfl
    exact inOrder.asymm wellFormed inOrder
  refine (standsBefore_or firstKept secondKept different).resolve_right fun reversed => ?_
  exact inOrder.asymm wellFormed (back isSecond isFirst reversed)

/-- A node of the earlier graphs that is still there has been there all the time. -/
theorem KeepsOrder.mem_ids (keeps : earlier.KeepsOrder later) {id : NodeId}
    (counted : id.index < earlier.created) (kept : id ∈ later.ids) : id ∈ earlier.ids :=
  keeps.kept.subset (List.mem_filter.mpr ⟨kept, decide_eq_true counted⟩)

/-! ### Where new nodes are placed -/

/-- A node has been placed immediately before the anchor if that is in the graph, and last
otherwise; nothing else has changed. -/
inductive Placed (anchor : Option NodeId) (new : Node) (earlier later : Graph) : Prop where
  /-- The anchor is in the graph. -/
  | ahead {before after : List Node} {node : Node} (isAnchor : anchor = some node.id)
      (split : earlier.nodes = before ++ node :: after)
      (placed : later.nodes = before ++ new :: node :: after)
  /-- There is no anchor, or it is not in the graph. -/
  | last (absent : ∀ id, anchor = some id → id ∉ earlier.ids)
      (placed : later.nodes = earlier.nodes ++ [new])

/-- The insertion point is the anchor of the innermost scope, or nothing after that anchor has been
removed. -/
inductive Tracks (graph : Graph) : Option NodeId → Prop where
  | held : Tracks graph graph.insertionPoint
  | lost {id : NodeId} (point : graph.insertionPoint = none) (gone : id ∉ graph.ids)
      (counted : id.index < graph.created) : Tracks graph (some id)

theorem placeBefore_of_not_mem {anchor : NodeId} {nodes : List Node}
    (absent : anchor ∉ nodes.map Node.id) (new : Node) :
    placeBefore anchor new nodes = nodes ++ [new] := by
  induction nodes with
  | nil => rfl
  | cons node rest ih =>
      simp only [List.map_cons, List.mem_cons, not_or] at absent
      rw [placeBefore, if_neg (Ne.symm absent.1), ih absent.2, List.cons_append]

theorem Tracks.placed {anchor : Option NodeId} (tracks : graph.Tracks anchor)
    (wellFormed : graph.WellFormed) (instruction : Instruction) (hint : Option String) :
    Placed anchor (graph.newNode instruction hint) graph (graph.emit instruction hint) := by
  cases tracks with
  | lost point gone counted =>
      refine .last ?_ (nodes_emit_of_none point instruction hint)
      rintro _ ⟨⟩
      exact gone
  | held =>
      cases point : graph.insertionPoint with
      | none => exact .last (fun _ impossible => nomatch impossible) (nodes_emit_of_none point _ _)
      | some id =>
          by_cases live : id ∈ graph.ids
          · obtain ⟨node, member, rfl⟩ := List.mem_map.mp live
            obtain ⟨before, after, split⟩ := List.append_of_mem member
            refine .ahead rfl split ?_
            show graph.place (graph.newNode instruction hint) = _
            rw [place, point]
            simp only [split]
            exact placeBefore_append _ (wellFormed.not_mem_before split)
          · refine .last ?_ ?_
            · rintro _ ⟨⟩
              exact live
            · show graph.place (graph.newNode instruction hint) = _
              rw [place, point]
              exact placeBefore_of_not_mem live _

/-- A new node stands before the anchor, and behind everything that stood before it. -/
theorem Placed.standsBefore {anchor : NodeId} {new : Node}
    (placed : Placed (some anchor) new earlier later) (wellFormed : earlier.WellFormed)
    (live : anchor ∈ earlier.ids) :
    later.StandsBefore new.id anchor ∧
      ∀ id, earlier.StandsBefore id anchor → later.StandsBefore id new.id := by
  cases placed with
  | last absent => exact absurd live (absent anchor rfl)
  | @ahead before after node isAnchor split placed =>
      obtain rfl := Option.some.inj isAnchor
      have laterIds : later.ids = before.map Node.id ++ new.id :: node.id :: after.map Node.id := by
        rw [ids, placed, List.map_append, List.map_cons, List.map_cons]
      constructor
      · rw [StandsBefore, laterIds]
        refine List.Sublist.trans ?_ (List.sublist_append_right _ _)
        exact (List.nil_sublist _).cons_cons node.id |>.cons_cons new.id
      · intro id inOrder
        have isBefore : id ∈ before.map Node.id := by
          have member := inOrder.mem_left
          rw [ids, split, List.map_append, List.map_cons, List.mem_append, List.mem_cons] at member
          rcases member with isBefore | rfl | isAfter
          · exact isBefore
          · exact absurd inOrder (inOrder.asymm wellFormed)
          · refine absurd ?_ (inOrder.asymm wellFormed)
            rw [StandsBefore, ids, split, List.map_append, List.map_cons]
            refine List.Sublist.trans ?_ (List.sublist_append_right _ _)
            exact (List.singleton_sublist.mpr isAfter).cons_cons node.id
        rw [StandsBefore, laterIds]
        show ([id] ++ [new.id]).Sublist _
        exact (List.singleton_sublist.mpr isBefore).append
          (List.singleton_sublist.mpr List.mem_cons_self)

/-- What an edit creates is placed as the scope says that the insertion point tracks. -/
theorem Edited.exists_placed {anchor : Option NodeId} (edited : Edited graph edit changed created)
    (tracks : graph.Tracks anchor) (wellFormed : graph.WellFormed) {creation : Creation}
    (isCreation : creation ∈ created) :
    ∃ new : Node, new.id = creation.id ∧ Placed anchor new graph changed := by
  cases edited with
  | created instruction hint =>
      obtain rfl := List.mem_singleton.mp isCreation
      exact ⟨graph.newNode instruction hint, rfl, tracks.placed wellFormed instruction hint⟩
  | overwritten | redirected | removed | failed => cases isCreation

/-- An edit leaves the insertion point alone, unless it removes the node that is marked. -/
theorem insertionPoint_edit (graph : Graph) (edit : Edit) :
    (graph.edit edit).insertionPoint = graph.insertionPoint ∨
      ∃ id ∈ graph.ids, graph.insertionPoint = some id ∧
        (graph.edit edit).insertionPoint = none ∧ id ∉ (graph.edit edit).ids := by
  cases edit with
  | create instruction hint => exact Or.inl rfl
  | copy node image =>
      rw [edit_copy]
      split
      · exact Or.inl rfl
      · exact Or.inl rfl
  | overwrite id change =>
      rw [edit_overwrite]
      split
      · exact Or.inl rfl
      · exact Or.inl rfl
  | redirect old new => exact Or.inl rfl
  | erase id =>
      rw [edit_erase]
      split
      · next removed =>
        by_cases marked : graph.insertionPoint = some id
        · refine Or.inr ⟨id, ?_, marked, if_pos marked, ?_⟩
          · obtain ⟨live, -⟩ := Bool.and_eq_true_iff.mp removed
            exact contains_eq_true_iff.mp live
          · simp [ids, drop]
        · exact Or.inl (if_neg marked)
      · exact Or.inl rfl

/-- A node that is no longer in the graph does not come back with an edit. -/
theorem Tracks.of_lost {id : NodeId} (point : later.insertionPoint = none)
    (gone : id ∉ earlier.ids) (counted : id.index < earlier.created)
    (keeps : earlier.KeepsOrder later) : later.Tracks (some id) := by
  refine .lost point (fun back => gone (keeps.mem_ids counted back)) ?_
  exact Nat.lt_of_lt_of_le counted keeps.created_le

theorem Tracks.kept {anchor : Option NodeId} (tracks : graph.Tracks anchor)
    (wellFormed : graph.WellFormed) (edit : Edit) : (graph.edit edit).Tracks anchor := by
  have keeps := (graph.edited edit).keepsOrder
  rcases graph.insertionPoint_edit edit with same | ⟨id, live, marked, cleared, gone⟩
  · cases tracks with
    | held =>
        rw [← same]
        exact .held
    | lost point gone counted => exact .of_lost (same.trans point) gone counted keeps
  · cases tracks with
    | held =>
        rw [marked]
        exact .lost cleared gone (Nat.lt_of_lt_of_le (wellFormed.counted id live) keeps.created_le)
    | lost point gone counted => exact .of_lost cleared gone counted keeps

/-- A scope leaves the insertion point as it found it, so the scope around it is as before. -/
theorem Tracks.restored {anchor : Option NodeId} (tracks : earlier.Tracks anchor)
    (keeps : earlier.KeepsOrder later) (restored : later.insertionPoint = earlier.insertionPoint) :
    later.Tracks anchor := by
  cases tracks with
  | held =>
      rw [← restored]
      exact .held
  | lost point gone counted => exact .of_lost (restored.trans point) gone counted keeps

end Graph

/-! ### Runs -/

/-- An edit in the course of a run: the anchor of the innermost scope around it, and the graph that
it is applied to. -/
structure Moment where
  anchor : Option NodeId
  graph : Graph
  edit : Edit

namespace Moment

/-- The graph after the edit. -/
def after (moment : Moment) : Graph :=
  moment.graph.edit moment.edit

/-- The edit creates a node in a scope whose anchor is in the graph. -/
def CreatesBefore (moment : Moment) (anchor id : NodeId) : Prop :=
  moment.anchor = some anchor ∧ anchor ∈ moment.graph.ids ∧
    ∃ creation ∈ moment.graph.creations moment.edit, creation.id = id

end Moment

/-- A scope in the course of a run: the graph on entering it and the one on leaving it. -/
structure Scope where
  entered : Graph
  left : Graph

namespace Script

/-- The edits of a run, in order, with `anchor` for those outside of all scopes. -/
def moments : Script → Option NodeId → Graph → List Moment
  | done, _, _ => []
  | edit first rest, anchor, graph =>
    ⟨anchor, graph, first⟩ :: rest.moments anchor (graph.edit first)
  | before id inner rest, anchor, graph =>
    inner.moments (some id) { graph with insertionPoint := some id } ++
      rest.moments anchor (graph.insertingBefore id inner.run).1

/-- The scopes of a run, those within others included. -/
def scopes : Script → Graph → List Scope
  | done, _ => []
  | edit first rest, graph => rest.scopes (graph.edit first)
  | before id inner rest, graph =>
    let left := (graph.insertingBefore id inner.run).1
    ⟨graph, left⟩ :: inner.scopes { graph with insertionPoint := some id } ++ rest.scopes left

/-- Every scope puts the insertion point back. -/
theorem insertionPoint_of_mem_scopes {script : Script} {graph : Graph} {scope : Scope}
    (member : scope ∈ script.scopes graph) :
    scope.left.insertionPoint = scope.entered.insertionPoint := by
  induction script generalizing graph with
  | done => cases member
  | edit first rest ih => exact ih member
  | before id inner rest ihInner ihRest =>
      rcases List.mem_append.mp member with member | later
      · rcases List.mem_cons.mp member with rfl | inside
        · rfl
        · exact ihInner inside
      · exact ihRest later

variable {script : Script} {graph : Graph} {anchor : Option NodeId} {moment : Moment}

/-- The edits of a run come between its first and its last graph. -/
theorem keepsOrder_of_mem_moments (member : moment ∈ script.moments anchor graph) :
    graph.KeepsOrder moment.graph ∧ moment.after.KeepsOrder (script.run graph).1 := by
  induction script generalizing graph anchor with
  | done => cases member
  | edit first rest ih =>
      rcases List.mem_cons.mp member with rfl | later
      · exact ⟨.refl graph, related_run Graph.development_keepsOrder _ _⟩
      · obtain ⟨start, finish⟩ := ih later
        exact ⟨(graph.edited first).keepsOrder.trans start, finish⟩
  | before id inner rest ihInner ihRest =>
      rcases List.mem_append.mp member with inside | later
      · obtain ⟨start, finish⟩ := ihInner inside
        refine ⟨(graph.keepsOrder_moveTo _).trans start, ?_⟩
        exact (related_left Graph.development_keepsOrder finish).trans
          (related_run Graph.development_keepsOrder _ _)
      · obtain ⟨start, finish⟩ := ihRest later
        have scope := related_insertingBefore Graph.development_keepsOrder inner graph id
        exact ⟨scope.trans start, finish⟩

/-- The edits of a run come one after the other. -/
theorem pairwise_moments (script : Script) (anchor : Option NodeId) (graph : Graph) :
    (script.moments anchor graph).Pairwise fun previous next =>
      previous.after.KeepsOrder next.graph := by
  induction script generalizing graph anchor with
  | done => exact List.Pairwise.nil
  | edit first rest ih =>
      refine List.pairwise_cons.mpr ⟨fun next later => ?_, ih _ _⟩
      exact (keepsOrder_of_mem_moments later).1
  | before id inner rest ihInner ihRest =>
      refine List.pairwise_append.mpr ⟨ihInner _ _, ihRest _ _, ?_⟩
      intro previous inside next later
      have left := related_left Graph.development_keepsOrder (keepsOrder_of_mem_moments inside).2
      exact left.trans (keepsOrder_of_mem_moments later).1

/-- What comes about after an edit keeps the order of the nodes that the edit left behind. -/
theorem keepsOrder_reached {earlier later : List Moment} {reached : Graph}
    (split : script.moments anchor graph = earlier ++ moment :: later)
    (isReached : reached = (script.run graph).1 ∨ ∃ next ∈ moment :: later, reached = next.after) :
    moment.after.KeepsOrder reached := by
  rcases isReached with rfl | ⟨next, isNext, rfl⟩
  · have member : moment ∈ script.moments anchor graph := by simp [split]
    exact (keepsOrder_of_mem_moments member).2
  · rcases List.mem_cons.mp isNext with rfl | isLater
    · exact .refl _
    · have ordered := script.pairwise_moments anchor graph
      rw [split, List.pairwise_append, List.pairwise_cons] at ordered
      exact (ordered.2.1.1 next isLater).trans (next.graph.edited next.edit).keepsOrder

/-- Each edit of a run finds the insertion point at the anchor of its innermost scope, or at
nothing. -/
theorem tracks_of_mem_moments (wellFormed : graph.WellFormed) (tracks : graph.Tracks anchor)
    (member : moment ∈ script.moments anchor graph) :
    moment.graph.WellFormed ∧ moment.graph.Tracks moment.anchor := by
  induction script generalizing graph anchor with
  | done => cases member
  | edit first rest ih =>
      rcases List.mem_cons.mp member with rfl | later
      · exact ⟨wellFormed, tracks⟩
      · exact ih ((graph.edited first).wellFormed wellFormed) (tracks.kept wellFormed first) later
  | before id inner rest ihInner ihRest =>
      rcases List.mem_append.mp member with inside | later
      · exact ihInner (wellFormed.moveTo (some id)) .held inside
      · have left := related_insertingBefore Graph.development_wellFormed inner graph id wellFormed
        have keeps := related_insertingBefore Graph.development_keepsOrder inner graph id
        exact ihRest left (tracks.restored keeps rfl) later

end Script

namespace Moment

variable {moment previous : Moment} {anchor id : NodeId} {reached : Graph}

theorem CreatesBefore.standsBefore (creates : moment.CreatesBefore anchor id)
    (wellFormed : moment.graph.WellFormed) (tracks : moment.graph.Tracks moment.anchor) :
    moment.after.StandsBefore id anchor ∧
      ∀ other, moment.graph.StandsBefore other anchor → moment.after.StandsBefore other id := by
  obtain ⟨isAnchor, live, creation, isCreation, rfl⟩ := creates
  obtain ⟨new, same, placed⟩ :=
    (moment.graph.edited moment.edit).exists_placed tracks wellFormed isCreation
  rw [isAnchor] at placed
  rw [← same]
  exact placed.standsBefore wellFormed live

/-- Nodes created before the same anchor stand in the order of their creation. -/
theorem CreatesBefore.inOrder {first second : NodeId}
    (creates : moment.CreatesBefore anchor second) (wellFormed : moment.graph.WellFormed)
    (tracks : moment.graph.Tracks moment.anchor)
    (wellFormedPrevious : previous.after.WellFormed)
    (ahead : previous.after.StandsBefore first anchor)
    (between : previous.after.KeepsOrder moment.graph) (kept : first ∈ moment.graph.ids) :
    moment.after.StandsBefore first second := by
  refine (creates.standsBefore wellFormed tracks).2 first ?_
  exact (between.standsBefore_iff wellFormedPrevious ahead.mem_left ahead.mem_right kept
    creates.2.1).mp ahead

end Moment

/-- Insertion scopes nest and keep order, along every script from every well-formed graph and with
scopes in scopes to any depth.  Each scope puts the insertion point back.  Each new node is placed
immediately before the anchor of the innermost scope if that is in the graph, and last otherwise.
Nodes that two graphs of the run have in common stand in the same order in both, and nodes created
before one anchor stand before it in the order of their creation from then on. -/
theorem insertion_scopes_nest_and_keep_order {graph : Graph} (wellFormed : graph.WellFormed)
    (script : Script) :
    (∀ scope ∈ script.scopes graph,
      scope.left.insertionPoint = scope.entered.insertionPoint) ∧
    (∀ moment ∈ script.moments graph.insertionPoint graph,
      ∀ creation ∈ moment.graph.creations moment.edit, ∃ new : Node, new.id = creation.id ∧
        Graph.Placed moment.anchor new moment.graph moment.after) ∧
    ((script.graphs graph).Pairwise fun earlier later => ∀ first second : NodeId,
      first ∈ earlier.ids → second ∈ earlier.ids → first ∈ later.ids → second ∈ later.ids →
        (earlier.StandsBefore first second ↔ later.StandsBefore first second)) ∧
    ∀ earlier moment later,
      script.moments graph.insertionPoint graph = earlier ++ moment :: later →
      ∀ anchor id, moment.CreatesBefore anchor id → ∀ reached,
        (reached = (script.run graph).1 ∨ ∃ next ∈ moment :: later, reached = next.after) →
        id ∈ reached.ids →
          (anchor ∈ reached.ids → reached.StandsBefore id anchor) ∧
          ∀ previous ∈ earlier, ∀ first, previous.CreatesBefore anchor first →
            first ∈ reached.ids → reached.StandsBefore first id := by
  have sound := fun moment member =>
    @Script.tracks_of_mem_moments script graph _ moment wellFormed .held member
  refine ⟨fun scope => Script.insertionPoint_of_mem_scopes, fun moment member creation => ?_, ?_,
    fun earlier moment later split anchor id creates reached isReached present => ?_⟩
  · exact (moment.graph.edited moment.edit).exists_placed (sound moment member).2
      (sound moment member).1
  · refine (Script.pairwise_related_graphs Graph.development_keepsOrder script graph).imp_of_mem ?_
    intro earlier later isEarlier _ keeps first second
    exact keeps.standsBefore_iff
      ((Script.related_of_mem_graphs Graph.development_wellFormed isEarlier).1 wellFormed)
  · have member : moment ∈ script.moments graph.insertionPoint graph := by simp [split]
    obtain ⟨here, tracks⟩ := sound moment member
    have onward := Script.keepsOrder_reached split isReached
    have after := (moment.graph.edited moment.edit).wellFormed here
    have ahead := (creates.standsBefore here tracks).1
    refine ⟨fun live => ?_, fun previous isPrevious first createsFirst kept => ?_⟩
    · exact (onward.standsBefore_iff after ahead.mem_left ahead.mem_right present live).mp ahead
    · have earlierMember : previous ∈ script.moments graph.insertionPoint graph := by
        simp [split, isPrevious]
      obtain ⟨there, tracksThere⟩ := sound previous earlierMember
      have afterPrevious := (previous.graph.edited previous.edit).wellFormed there
      have aheadFirst := (createsFirst.standsBefore there tracksThere).1
      have ordered := script.pairwise_moments graph.insertionPoint graph
      rw [split, List.pairwise_append] at ordered
      have between := ordered.2.2 previous isPrevious moment List.mem_cons_self
      -- The earlier node is still there at the end, so it was there all the time.
      have counted : first.index < moment.graph.created :=
        Nat.lt_of_lt_of_le (afterPrevious.counted first aheadFirst.mem_left) between.created_le
      have edited := (moment.graph.edited moment.edit).keepsOrder
      have keptHere := (edited.trans onward).mem_ids counted kept
      have inOrder := creates.inOrder here tracks afterPrevious aheadFirst between keptHere
      exact (onward.standsBefore_iff after inOrder.mem_left inOrder.mem_right kept present).mp
        inOrder

/-- Three nodes, of which the last two read the first. -/
def twoReaders : Graph where
  nodes :=
    [{ op := .placeholder, id := ⟨0⟩, name := "input" },
      { op := .callFunction ⟨"torch.exp"⟩, args := [.ref ⟨0⟩], id := ⟨1⟩, name := "exp" },
      { op := .callFunction ⟨"torch.relu"⟩, args := [.ref ⟨0⟩], id := ⟨2⟩, name := "relu" }]
  created := 3

/-- A scope before the last node, and in it a scope before the second node, which removes the last
one; a second attempt to remove it fails. -/
def tangledScopes : Script :=
  let create := Edit.create { op := .getAttr "weight" } none
  .before ⟨2⟩
    (.edit create
      (.before ⟨1⟩
        (.edit create (.edit (.erase ⟨2⟩) (.edit (.erase ⟨2⟩) (.edit create .done))))
        (.edit create .done)))
    (.edit create .done)

theorem tangledScopes_keep_order :
    twoReaders.WellFormed ∧
    ((tangledScopes.run twoReaders).1.ids = [⟨0⟩, ⟨4⟩, ⟨5⟩, ⟨1⟩, ⟨3⟩, ⟨6⟩, ⟨7⟩]) ∧
    (∀ scope ∈ tangledScopes.scopes twoReaders,
      scope.left.insertionPoint = scope.entered.insertionPoint) ∧
    (tangledScopes.run twoReaders).1.StandsBefore ⟨5⟩ ⟨1⟩ ∧
    (tangledScopes.run twoReaders).1.StandsBefore ⟨4⟩ ⟨5⟩ := by
  have wellFormed : twoReaders.WellFormed := ⟨by decide, by decide⟩
  obtain ⟨restored, -, -, inOrder⟩ :=
    insertion_scopes_nest_and_keep_order wellFormed tangledScopes
  obtain ⟨ahead, behind⟩ := inOrder [_, _, _, _] _ [_, _] rfl ⟨1⟩ ⟨5⟩
    ⟨rfl, by decide, _, List.mem_singleton_self _, rfl⟩ _ (Or.inl rfl) (by decide)
  refine ⟨wellFormed, by decide, restored, ahead (by decide), ?_⟩
  exact behind _ (List.mem_cons_of_mem _ List.mem_cons_self) ⟨4⟩
    ⟨rfl, by decide, _, List.mem_singleton_self _, rfl⟩ (by decide)

end OpGraph
