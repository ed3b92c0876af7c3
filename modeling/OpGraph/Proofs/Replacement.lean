import OpGraph.Graph.Replacement
import OpGraph.Proofs.ReuseSteps

/-!
# Replacing a node by others

A computation is replaced in three steps: new nodes are emitted before it, its readers are led to an
argument over what now stands before it, and it is erased.  Each step keeps a valid graph valid.

The counted replacement is the redirection of readers together with the number of the readers
(`Graph.replaceUses_eq`).  Emitted in turn, new nodes fill the gap before the old one from left to
right (`Graph.Gap.emitAll`), so what each of them may read is what stood before the gap and the
earlier ones (`Graph.Fits`).
-/

namespace OpGraph

/-! ### Counted replacement -/

namespace Argument

variable {ρ : Type} [DecidableEq ρ]

/-- Replacing in several arguments, once it is known what it does to each of them. -/
theorem replaceAll_eq_of_replace_eq {old : ρ} {new : Argument ρ} {items : List (Argument ρ)}
    (each : ∀ item ∈ items,
      replace old new item = (item.bind (single old new), item.mentions old)) :
    replaceAll old new items =
      (bindAll (single old new) items, (refsAll items).contains old) := by
  induction items with
  | nil => rfl
  | cons item rest ih =>
      obtain ⟨first, others⟩ := List.forall_mem_cons.mp each
      simp only [replaceAll, first, ih others, bindAll, refsAll, mentions, List.contains_append]

/-- Replacing substitutes for the reference and tells whether it occurs. -/
theorem replace_eq (old : ρ) (new argument : Argument ρ) :
    replace old new argument = (argument.bind (single old new), argument.mentions old) := by
  induction argument with
  | ref target =>
      by_cases same : target = old
      · simp [replace, bind, single, mentions, refs, same]
      · simp [replace, bind, single, mentions, refs, same, Ne.symm same]
  | literal value => rfl
  | tuple items ih =>
      rw [replace, replaceAll_eq_of_replace_eq ih]
      rfl

theorem replaceAll_eq (old : ρ) (new : Argument ρ) (items : List (Argument ρ)) :
    replaceAll old new items =
      (bindAll (single old new) items, (refsAll items).contains old) :=
  replaceAll_eq_of_replace_eq fun item _ => replace_eq old new item

end Argument

theorem Kwargs.replace_eq {ρ : Type} [DecidableEq ρ] (old : ρ) (new : Argument ρ)
    (kwargs : Kwargs ρ) :
    kwargs.replace old new = (kwargs.bind (Argument.single old new), kwargs.refs.contains old) := by
  simp only [Kwargs.replace, Argument.replace_eq]
  refine Prod.ext Std.ExtTreeMap.map_map ?_
  rw [Bool.eq_iff_iff, List.any_eq_true, List.contains_iff_mem, mem_refs]
  simp only [Prod.exists, Std.ExtTreeMap.mem_toList_iff_getElem?_eq_some,
    Std.ExtTreeMap.getElem?_map, Option.map_eq_some_iff, Prod.mk.injEq]
  constructor
  · rintro ⟨keyword, _, _, ⟨argument, given, rfl, rfl⟩, found⟩
    exact ⟨keyword, argument, given, List.contains_iff_mem.mp found⟩
  · rintro ⟨keyword, argument, given, isRef⟩
    exact ⟨keyword, _, _, ⟨argument, given, rfl, rfl⟩, List.contains_iff_mem.mpr isRef⟩

theorem Instruction.replace_eq (old : NodeId) (new : Arg) (instruction : Instruction) :
    instruction.replace old new =
      (instruction.bind (Argument.single old new), instruction.reads old) := by
  simp only [Instruction.replace, Argument.replaceAll_eq, Kwargs.replace_eq, bind, reads, inputs,
    List.contains_append]

namespace Graph

theorem replaceIn_eq (old : NodeId) (new : Arg) (nodes : List Node) :
    replaceIn old new nodes =
      (nodes.map (Node.redirect old new), nodes.countP fun node => node.reads old) := by
  induction nodes with
  | nil => rfl
  | cons node rest ih =>
      simp only [replaceIn, Instruction.replace_eq, ih, List.map_cons, Node.redirect,
        List.countP_cons]
      split <;> rfl

/-- Counted replacement redirects the readers of the node, and their number is the count. -/
theorem replaceUses_eq (graph : Graph) (old : NodeId) (new : Arg) :
    graph.replaceUses old new = (graph.redirect old new, (graph.users old).length) := by
  rw [replaceUses, replaceIn_eq, users, List.length_map, ← List.countP_eq_length_filter]
  rfl

/-! ### Nodes emitted in turn -/

/-- Create nodes in turn, each with the name that it asks for. -/
def emitAll : Graph → List (Instruction × Option String) → Graph
  | graph, [] => graph
  | graph, (instruction, hint) :: rest => (graph.emit instruction hint).emitAll rest

/-- The nodes that come into being when instructions are emitted in turn. -/
def newNodes : Graph → List (Instruction × Option String) → List Node
  | _, [] => []
  | graph, (instruction, hint) :: rest =>
    graph.newNode instruction hint :: newNodes (graph.emit instruction hint) rest

/-- Instructions that can be emitted in turn where the nodes `defined` are known: each of them
computes a value, and reads known nodes or those that the instructions before it become. -/
def Fits (graph : Graph) (defined : Set NodeId) (news : List (Instruction × Option String)) :
    Prop :=
  ∀ index instruction hint, news[index]? = some (instruction, hint) →
    instruction.op.IsInner ∧ ∀ input ∈ instruction.inputs,
      input ∈ defined ∨ ∃ earlier < index, input = ⟨graph.created + earlier⟩

/-- The identities of the nodes before the given one. -/
def idsBefore (graph : Graph) (id : NodeId) : List NodeId :=
  graph.ids.takeWhile fun other => other ≠ id

section

variable {graph : Graph} {news : List (Instruction × Option String)} {before after : List Node}
variable {node : Node}

theorem map_toInstruction_newNodes (graph : Graph) (news : List (Instruction × Option String)) :
    (graph.newNodes news).map Node.toInstruction = news.map Prod.fst := by
  induction news generalizing graph with
  | nil => rfl
  | cons first rest ih =>
      rw [newNodes, List.map_cons, ih, List.map_cons]
      rfl

/-- Nodes emitted in turn have consecutive identities. -/
theorem map_id_newNodes (graph : Graph) (news : List (Instruction × Option String)) :
    (graph.newNodes news).map (fun node => node.id.index) =
      List.range' graph.created news.length := by
  induction news generalizing graph with
  | nil => rfl
  | cons first rest ih =>
      rw [newNodes, List.map_cons, ih, List.length_cons, List.range'_succ]
      rfl

theorem WellFormed.emitAll (wellFormed : graph.WellFormed)
    (news : List (Instruction × Option String)) : (graph.emitAll news).WellFormed := by
  induction news generalizing graph with
  | nil => exact wellFormed
  | cons first rest ih => exact ih (wellFormed.emit first.1 first.2)

/-- Nodes emitted in turn fill the gap from left to right. -/
theorem Gap.emitAll (wellFormed : graph.WellFormed) (gap : graph.Gap before after)
    (news : List (Instruction × Option String)) :
    (graph.emitAll news).Gap (before ++ graph.newNodes news) after := by
  induction news generalizing graph before with
  | nil =>
      rw [newNodes, List.append_nil]
      exact gap
  | cons first rest ih =>
      have filled := ih (wellFormed.emit first.1 first.2) (gap.emit wellFormed first.1 first.2)
      rw [List.append_assoc] at filled
      exact filled

/-- What is known grows by each emitted node. -/
theorem Fits.tail {defined : Set NodeId} {instruction : Instruction} {hint : Option String}
    (fits : graph.Fits defined ((instruction, hint) :: news)) :
    (graph.emit instruction hint).Fits (insert graph.nextId defined) news := by
  intro index other otherHint found
  obtain ⟨inner, known⟩ := fits (index + 1) other otherHint found
  refine ⟨inner, fun input isInput => ?_⟩
  rcases known input isInput with isDefined | ⟨earlier, isEarlier, rfl⟩
  · exact Or.inl (Set.mem_insert_of_mem _ isDefined)
  · cases earlier with
    | zero => exact Or.inl (Set.mem_insert _ _)
    | succ place =>
        refine Or.inr ⟨place, Nat.lt_of_succ_lt_succ isEarlier, ?_⟩
        exact congrArg NodeId.mk (Nat.succ_add_eq_add_succ graph.created place).symm

theorem Fits.closed {defined : Set NodeId} (fits : graph.Fits defined news) :
    Closed defined (graph.newNodes news) := by
  induction news generalizing graph defined with
  | nil => trivial
  | cons first rest ih =>
      refine ⟨fun input isInput => ?_, ih fits.tail⟩
      rcases (fits 0 first.1 first.2 rfl).2 input isInput with known | ⟨_, impossible, -⟩
      · exact known
      · exact absurd impossible (Nat.not_lt_zero _)

theorem Fits.isInner {defined : Set NodeId} (fits : graph.Fits defined news) :
    ∀ other ∈ graph.newNodes news, other.op.IsInner := by
  intro other member
  have isNew : other.toInstruction ∈ news.map Prod.fst := by
    rw [← map_toInstruction_newNodes graph]
    exact List.mem_map_of_mem member
  obtain ⟨⟨instruction, hint⟩, listed, same⟩ := List.mem_map.mp isNew
  obtain ⟨index, found⟩ := List.getElem?_of_mem listed
  have inner := (fits index instruction hint found).1
  rwa [show instruction = other.toInstruction from same] at inner

theorem idsBefore_of_split (wellFormed : graph.WellFormed)
    (split : graph.nodes = before ++ node :: after) :
    graph.idsBefore node.id = before.map Node.id := by
  have earlier : ∀ other ∈ before.map Node.id, decide (other ≠ node.id) = true := by
    intro other member
    rw [decide_eq_true_eq]
    rintro rfl
    exact wellFormed.not_mem_before split member
  rw [idsBefore, ids, split, List.map_append, List.takeWhile_append_of_pos earlier, List.map_cons,
    List.takeWhile_cons_of_neg (by simp), List.append_nil]

/-- Inner nodes that read earlier ones can be put before an inner node. -/
theorem Valid.insert {added : List Node} (valid : Valid (before ++ node :: after))
    (inner : node.op.IsInner) (innerAdded : ∀ other ∈ added, other.op.IsInner)
    (closedAdded : Closed {id | id ∈ before.map Node.id} added) :
    Valid (before ++ added ++ node :: after) := by
  obtain ⟨closedBefore, closedAfter⟩ := closed_append.mp valid.closed
  constructor
  · rw [closed_append, closed_append]
    refine ⟨⟨closedBefore, by simpa using closedAdded⟩, closed_mono ?_ closedAfter⟩
    intro id member
    simp only [Set.empty_union, Set.mem_ofPred_eq, List.map_append, List.mem_append] at member ⊢
    exact Or.inl member
  · rw [List.append_assoc]
    refine valid.arranged.exchange fun past arranged => Arranged.append_inner ?_ innerAdded
    rw [arranged_cons_inner inner] at arranged ⊢
    exact arranged

/-! ### Insertion, replacement and removal -/

/-- Create nodes in turn, all of them before `anchor`. -/
def emitAllBefore (graph : Graph) (anchor : NodeId)
    (news : List (Instruction × Option String)) : Graph :=
  (graph.insertingBefore anchor fun inner => (inner.emitAll news, ())).1

theorem WellFormed.emitAllBefore (wellFormed : graph.WellFormed) (anchor : NodeId)
    (news : List (Instruction × Option String)) : (graph.emitAllBefore anchor news).WellFormed :=
  ((wellFormed.moveTo (some anchor)).emitAll news).moveTo graph.insertionPoint

theorem nodes_emitAllBefore (wellFormed : graph.WellFormed)
    (split : graph.nodes = before ++ node :: after)
    (news : List (Instruction × Option String)) :
    (graph.emitAllBefore node.id news).nodes =
      before ++ ({ graph with insertionPoint := some node.id } : Graph).newNodes news ++
        node :: after :=
  ((gap_before split).emitAll (wellFormed.moveTo (some node.id)) news).nodes_eq

/-- Once the readers of a node read what stands before it, the node can be erased, and a valid graph
is left that holds the other nodes in their order. -/
theorem exists_erase_replaceUses (wellFormed : graph.WellFormed) (valid : Valid graph.nodes)
    (split : graph.nodes = before ++ node :: after) (inner : node.op.IsInner) {new : Arg}
    (known : ∀ target ∈ new.refs, target ∈ before.map Node.id) :
    (graph.replaceUses node.id new).1.users node.id = [] ∧
      ∃ final, (graph.replaceUses node.id new).1.erase node.id = .ok final ∧
        final.validate = .ok () ∧
          final.nodes = (graph.nodes.filter fun other => other.id ≠ node.id).map
            (Node.redirect node.id new) := by
  have absent : node.id ∉ new.refs := fun isRef =>
    wellFormed.not_mem_before split (known node.id isRef)
  have isThere : node.id ∈ graph.ids := by
    rw [ids, split]
    simp
  rw [split] at valid
  have unread := valid.closed.not_mem_inputs (wellFormed.not_mem_before split)
  have noneAdded : ∀ other ∈ ([] : List Node), other.op.IsInner := fun _ member =>
    absurd member List.not_mem_nil
  have shortened := valid.replace inner (wellFormed.not_mem_after split) noneAdded trivial
    (by rwa [List.append_nil])
  rw [replaceUses_eq]
  refine ⟨users_redirect graph absent, _, erase_redirect isThere absent, ?_, ?_⟩
  · rw [validate_eq_ok_iff, nodes_drop_redirect wellFormed split unread]
    rwa [List.append_nil] at shortened
  · have others : graph.nodes.filter (fun other => other.id ≠ node.id) = before ++ after :=
      nodes_drop wellFormed split
    rw [nodes_drop_redirect_map wellFormed split, others]

end

end Graph

/-- A computation of a valid graph can be replaced.  Computations that read nodes before it, or one
another in turn, can be emitted before it.  Its readers can then be led to any argument over what
stands before it, as many as the count says, and it can be erased.  The graph is valid after the
insertion and in the end, when it holds every other node in its place, with the argument wherever it
referred to the old node. -/
theorem replacement_keeps_graphs_valid {graph : Graph} (wellFormed : graph.WellFormed)
    (valid : graph.validate = .ok ()) {node : Node} (member : node ∈ graph.nodes)
    (inner : node.op.IsInner) {news : List (Instruction × Option String)}
    (fits : graph.Fits {id | id ∈ graph.idsBefore node.id} news) :
    let inserted := graph.emitAllBefore node.id news
    inserted.validate = .ok () ∧
      (∃ before added after, graph.nodes = before ++ node :: after ∧
        inserted.nodes = before ++ added ++ node :: after ∧
          added.map Node.toInstruction = news.map Prod.fst ∧
            added.map (fun new => new.id.index) = List.range' graph.created news.length) ∧
      ∀ new : Arg, (∀ target ∈ new.refs, target ∈ inserted.idsBefore node.id) →
        (inserted.replaceUses node.id new).2 = (inserted.users node.id).length ∧
          (inserted.replaceUses node.id new).1.users node.id = [] ∧
            ∃ final, (inserted.replaceUses node.id new).1.erase node.id = .ok final ∧
              final.validate = .ok () ∧
                final.nodes = (inserted.nodes.filter fun other => other.id ≠ node.id).map
                  (Node.redirect node.id new) := by
  intro inserted
  obtain ⟨before, after, split⟩ := List.append_of_mem member
  have nodes := Graph.nodes_emitAllBefore wellFormed split news
  have wellInserted := wellFormed.emitAllBefore node.id news
  rw [Graph.idsBefore_of_split wellFormed split] at fits
  have opened : ({ graph with insertionPoint := some node.id } : Graph).Fits
      {id | id ∈ before.map Node.id} news := fits
  have validInserted : Graph.Valid inserted.nodes := by
    rw [Graph.validate_eq_ok_iff, split] at valid
    rw [nodes]
    exact valid.insert inner opened.isInner opened.closed
  refine ⟨Graph.validate_eq_ok_iff.mpr validInserted, ⟨before, _, after, split, nodes,
    Graph.map_toInstruction_newNodes _ news, Graph.map_id_newNodes _ news⟩, fun new known => ?_⟩
  rw [Graph.idsBefore_of_split wellInserted nodes] at known
  refine ⟨by rw [Graph.replaceUses_eq], ?_⟩
  exact Graph.exists_erase_replaceUses wellInserted validInserted nodes inner known

/-- The sum of two inputs. -/
def addedInputs : Node :=
  { op := .callFunction ⟨"torch.add"⟩, args := [.ref ⟨0⟩, .ref ⟨1⟩], id := ⟨4⟩, name := "add" }

/-- A sum that one call reads below two tuples and by keyword, and the output below a tuple. -/
def sharedSum : Graph where
  nodes :=
    [{ op := .placeholder, id := ⟨0⟩, name := "x" },
      { op := .placeholder, id := ⟨1⟩, name := "y" },
      addedInputs,
      { op := .callFunction ⟨"torch.cat"⟩, args := [.tuple [.ref ⟨1⟩, .tuple [.ref ⟨4⟩]]],
        kwargs := (∅ : Kwargs NodeId).insert "out" (.ref ⟨4⟩), id := ⟨2⟩, name := "cat" },
      { op := .output, args := [.tuple [.ref ⟨4⟩, .ref ⟨2⟩]], id := ⟨3⟩, name := "output" }]
  created := 6
  insertionPoint := some ⟨4⟩

/-- A weight that is read, and its product with an input. -/
def weightedInput : List (Instruction × Option String) :=
  [({ op := .getAttr "weight" }, none),
    ({ op := .callFunction ⟨"torch.mul"⟩, args := [.ref ⟨6⟩, .ref ⟨0⟩] }, some "scaled")]

theorem fits_weightedInput :
    sharedSum.Fits {id | id ∈ sharedSum.idsBefore addedInputs.id} weightedInput := by
  intro index instruction hint found
  match index, found with
  | 0, found =>
      obtain ⟨rfl, rfl⟩ := Prod.mk.inj (Option.some.inj found)
      exact ⟨Op.isInner_getAttr _, fun input isInput => absurd isInput List.not_mem_nil⟩
  | 1, found =>
      obtain ⟨rfl, rfl⟩ := Prod.mk.inj (Option.some.inj found)
      refine ⟨Op.isInner_of_isCall rfl, fun input isInput => ?_⟩
      rcases List.mem_pair.mp isInput with rfl | rfl
      · exact Or.inr ⟨0, Nat.zero_lt_one, rfl⟩
      · exact Or.inl (by decide)

theorem sharedSum_replaced_by_weightedInput :
    sharedSum.validate = .ok () ∧
      let inserted := sharedSum.emitAllBefore ⟨4⟩ weightedInput
      let new : Arg := .tuple [.ref ⟨7⟩, .literal (.int 1), .ref ⟨1⟩]
      inserted.validate = .ok () ∧ (inserted.replaceUses ⟨4⟩ new).2 = 2 ∧
        ∃ final, (inserted.replaceUses ⟨4⟩ new).1.erase ⟨4⟩ = .ok final ∧
          final.validate = .ok () ∧
            final.ids = [⟨0⟩, ⟨1⟩, ⟨6⟩, ⟨7⟩, ⟨2⟩, ⟨3⟩] := by
  have wellFormed : sharedSum.WellFormed := ⟨by decide, by decide⟩
  have valid : sharedSum.validate = .ok () := by decide
  have member : addedInputs ∈ sharedSum.nodes := by decide
  obtain ⟨validInserted, -, replacing⟩ := replacement_keeps_graphs_valid wellFormed valid member
    (Op.isInner_of_isCall rfl) fits_weightedInput
  obtain ⟨count, -, final, erased, validFinal, nodes⟩ :=
    replacing (.tuple [.ref ⟨7⟩, .literal (.int 1), .ref ⟨1⟩]) (by decide)
  refine ⟨valid, validInserted, count, final, erased, validFinal, ?_⟩
  rw [Graph.ids, nodes]
  decide

end OpGraph
