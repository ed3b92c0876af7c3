import OpGraph.Proofs.Atomicity
import OpGraph.Proofs.Names
import OpGraph.Proofs.Purity

/-!
# Inputs of graphs

In a valid graph the inputs come first.  Normalization and storage reuse exchange inner nodes, so
they leave the inputs as they are.  Purification copies the inputs before it comes to any other
node: the copies keep their records, and their names are formed from those of the inputs.
-/

namespace OpGraph

namespace Graph

/-- The inputs among some nodes. -/
def inputsOf (nodes : List Node) : List Node :=
  nodes.filter fun node => node.op = .placeholder

/-- The inputs of a graph. -/
def inputNodes (graph : Graph) : List Node :=
  inputsOf graph.nodes

theorem inputsOf_append (first second : List Node) :
    inputsOf (first ++ second) = inputsOf first ++ inputsOf second :=
  List.filter_append ..

theorem inputsOf_eq_nil {nodes : List Node} (noInput : ∀ node ∈ nodes, node.op ≠ .placeholder) :
    inputsOf nodes = [] := by
  refine List.filter_eq_nil_iff.mpr fun node member => ?_
  simpa using noInput node member

theorem inputsOf_eq_self {nodes : List Node} (isInput : ∀ node ∈ nodes, node.op = .placeholder) :
    inputsOf nodes = nodes := by
  refine List.filter_eq_self.mpr fun node member => ?_
  simpa using isInput node member

theorem op_of_mem_inputsOf {nodes : List Node} {node : Node} (member : node ∈ inputsOf nodes) :
    node.op = .placeholder := by
  simpa using List.of_mem_filter member

/-- No input comes after a node that is none. -/
theorem Arranged.noInput {nodes : List Node} (arranged : Arranged true nodes) :
    ∀ node ∈ nodes, node.op ≠ .placeholder := by
  induction nodes with
  | nil => exact fun _ member => absurd member List.not_mem_nil
  | cons first rest ih =>
      rcases first.op.cases_isInner with isInput | isOutput | inner
      · cases ((arranged_cons_input isInput).mp arranged).1
      · obtain rfl := (arranged_cons_output isOutput).mp arranged
        exact List.forall_mem_singleton.mpr (by simp [isOutput])
      · exact List.forall_mem_cons.mpr ⟨inner.1, ih ((arranged_cons_inner inner).mp arranged)⟩

/-- The inputs of an arrangement come first. -/
theorem Arranged.exists_others {nodes : List Node} (arranged : Arranged false nodes) :
    ∃ others, nodes = inputsOf nodes ++ others ∧ ∀ node ∈ others, node.op ≠ .placeholder := by
  induction nodes with
  | nil => exact arranged.elim
  | cons first rest ih =>
      have past : Arranged true (first :: rest) →
          ∃ others, first :: rest = inputsOf (first :: rest) ++ others ∧
            ∀ node ∈ others, node.op ≠ .placeholder := by
        intro arranged
        rw [inputsOf_eq_nil arranged.noInput]
        exact ⟨first :: rest, rfl, arranged.noInput⟩
      rcases first.op.cases_isInner with isInput | isOutput | inner
      · obtain ⟨others, split, noInput⟩ := ih ((arranged_cons_input isInput).mp arranged).2
        have first_inputs : inputsOf (first :: rest) = first :: inputsOf rest :=
          List.filter_cons_of_pos (by simpa using isInput)
        refine ⟨others, ?_, noInput⟩
        rw [first_inputs, List.cons_append, ← split]
      · rw [arranged_cons_output isOutput, ← arranged_cons_output isOutput] at arranged
        exact past arranged
      · rw [arranged_cons_inner inner, ← arranged_cons_inner inner] at arranged
        exact past arranged

/-- Inner nodes in the place of an inner node leave the inputs. -/
theorem Arranged.inputsOf_exchange {before added after : List Node} {node : Node} {past : Bool}
    (arranged : Arranged past (before ++ node :: after)) (inner : node.op.IsInner)
    (innerAdded : ∀ other ∈ added, other.op.IsInner) (old : NodeId) (new : Arg) :
    inputsOf (before ++ added ++ after.map (Node.redirect old new)) =
      inputsOf (before ++ node :: after) := by
  obtain ⟨past, following⟩ := arranged.of_append
  have noneBehind := ((arranged_cons_inner inner).mp following).noInput
  have noneRedirected : ∀ other ∈ after.map (Node.redirect old new), other.op ≠ .placeholder := by
    intro other member
    obtain ⟨kept, isKept, rfl⟩ := List.mem_map.mp member
    exact noneBehind kept isKept
  rw [inputsOf_append, inputsOf_append, inputsOf_append, inputsOf_eq_nil noneRedirected,
    inputsOf_eq_nil fun other member => (innerAdded other member).1,
    inputsOf_eq_nil (List.forall_mem_cons.mpr ⟨inner.1, noneBehind⟩), List.append_nil]

end Graph

/-! ### Normalization and storage reuse -/

theorem inputNodes_normalize {rules : Rules} {program : Program} {graph : Graph}
    (wellFormed : program.graph.WellFormed) (valid : Graph.Valid program.graph.nodes)
    (success : (normalize rules program).outcome = .ok graph) :
    graph.inputNodes = program.graph.inputNodes := by
  obtain ⟨last, kept, -, rfl, -⟩ := @normalize_induction rules program
    (fun scan => scan.graph.inputNodes = program.graph.inputNodes)
    (by
      intro scan node next kept stage found visit
      rcases stage.nodes_visit found visit with same |
        ⟨before, added, after, final, value, split, inner, -, spliced, nodes⟩
      · rw [Graph.inputNodes, same]
        exact kept
      · have arranged := stage.valid.arranged
        rw [split] at arranged
        rw [Graph.inputNodes, nodes, arranged.inputsOf_exchange inner spliced.inner, ← split]
        exact kept)
    graph wellFormed valid rfl success
  exact kept

theorem inputNodes_reuseStorage {rules : Rules} {accepts : Signatures} {program : Program}
    {graph : Graph} {calls : List ReusedCall} (wellFormed : program.graph.WellFormed)
    (valid : Graph.Valid program.graph.nodes)
    (success : reuseStorage rules accepts program = .ok (graph, calls)) :
    graph.inputNodes = program.graph.inputNodes := by
  obtain ⟨walk, kept, -⟩ := @reuseStorage_induction rules accepts program
    (fun before after _ => Graph.inputsOf (before ++ after) = program.graph.inputNodes)
    (by
      intro before node after later walk next kept stage visit _
      rw [List.append_assoc, List.singleton_append] at kept
      cases visit with
      | kept => exact kept
      | @changed plan _ isCall _ _ =>
          have inner := Op.isInner_of_isCall isCall
          have innerNew : ∀ other ∈ [walk.graph.newNode (plan.apply node.toInstruction) none],
              other.op.IsInner := List.forall_mem_singleton.mpr inner
          have arranged := stage.valid.arranged
          rw [List.append_assoc, List.singleton_append] at arranged
          have exchanged := arranged.inputsOf_exchange inner innerNew node.id
            (.ref walk.graph.nextId)
          rw [List.append_assoc, List.singleton_append] at exchanged
          exact exchanged.trans kept)
    graph calls wellFormed valid (fun _ _ => by rw [List.append_nil]; rfl) success
  exact kept

/-! ### Purification -/

namespace Purifier

/-- The base name that an input hands on to its copy. -/
def inputBase (node : Node) : String :=
  Dotted.flatten node.name

/-- Inputs have been visited and nothing else: the new graph consists of their copies. -/
structure Copied (inputs : List Node) (purifier : Purifier) : Prop where
  /-- New nodes are placed at the end. -/
  atEnd : purifier.graph.insertionPoint = none
  /-- The new nodes are inputs. -/
  isInput : ∀ new ∈ purifier.graph.nodes, new.op = .placeholder
  /-- Every input stands for its copy, which has the same record. -/
  copies : List.Forall₂ (fun old new => new.info = old.info ∧
    purifier.env[old.id]? = some (.ref new.id)) inputs purifier.graph.nodes
  /-- The copies are numbered from the first on. -/
  ids : purifier.graph.ids = (List.range inputs.length).map NodeId.mk
  /-- The copies are named after the inputs. -/
  named : purifier.graph.NamedBy (inputs.map inputBase)

theorem copied_start : Copied [] {} :=
  ⟨rfl, fun _ member => absurd member List.not_mem_nil, .nil, rfl, Graph.namedBy_empty⟩

theorem Copied.step {rules : Rules} {program : Program} {inputs : List Node} {node : Node}
    {purifier next : Purifier} (copied : Copied inputs purifier)
    (step : Step rules program node purifier next) (isInput : node.op = .placeholder)
    (absent : node.id ∉ inputs.map Node.id) : Copied (inputs ++ [node]) next := by
  cases step with
  | folded isCall =>
      rw [isInput] at isCall
      cases isCall
  | called isCall =>
      rw [isInput] at isCall
      cases isCall
  | @copied instruction noCall found =>
      have hint : node.copyHint = some node.name := by rw [Node.copyHint, isInput]
      have nodes := Graph.nodes_emit_of_none copied.atEnd instruction node.copyHint
      refine ⟨copied.atEnd, ?_, ?_, ?_, ?_⟩
      · rw [nodes]
        exact List.forall_mem_append.mpr ⟨copied.isInput,
          List.forall_mem_singleton.mpr ((Instruction.op_traverse found).trans isInput)⟩
      · rw [nodes]
        have distinct : ∀ old ∈ inputs, old.id ≠ node.id := fun old member same =>
          absent (same ▸ List.mem_map_of_mem member)
        have others := (List.forall₂_and_left inputs purifier.graph.nodes).mpr
          ⟨distinct, copied.copies⟩
        refine List.rel_append (others.imp ?_) (.cons ⟨?_, ?_⟩ .nil)
        · rintro old new ⟨different, record, bound⟩
          exact ⟨record, (Env.getElem?_insert_of_ne different _ _).trans bound⟩
        · exact Instruction.info_of_traverse found
        · exact Std.ExtTreeMap.getElem?_insert_self
      · have number : purifier.graph.nextId = ⟨inputs.length⟩ := by
          rw [Graph.nextId, copied.named.count, List.length_map]
        rw [Graph.ids, nodes, List.map_append, List.length_append, List.length_singleton,
          List.range_succ, List.map_append, ← copied.ids]
        exact congrArg (purifier.graph.ids ++ [·]) number
      · rw [hint, List.map_append]
        exact copied.named.emit instruction (some node.name)

/-- The new graph goes on after the copies of the inputs, with nodes that are no inputs. -/
structure GoesOn (begun : Purifier) (purifier : Purifier) : Prop where
  /-- New nodes are placed at the end. -/
  atEnd : purifier.graph.insertionPoint = none
  /-- The nodes so far stay, and no input comes after them. -/
  nodes : ∃ added, purifier.graph.nodes = begun.graph.nodes ++ added ∧
    ∀ node ∈ added, node.op ≠ .placeholder

theorem GoesOn.emit {begun purifier : Purifier} (goesOn : GoesOn begun purifier)
    {instruction : Instruction} (noInput : instruction.op ≠ .placeholder) (hint : Option String)
    (env : Env) (tally : Tally) :
    GoesOn begun ⟨purifier.graph.emit instruction hint, env, tally⟩ := by
  obtain ⟨atEnd, added, nodes, none⟩ := goesOn
  refine ⟨atEnd, added ++ [purifier.graph.newNode instruction hint], ?_, ?_⟩
  · rw [Graph.nodes_emit_of_none atEnd, nodes, List.append_assoc]
  · exact List.forall_mem_append.mpr ⟨none, List.forall_mem_singleton.mpr noInput⟩

theorem GoesOn.step {rules : Rules} {program : Program} {node : Node}
    {begun purifier next : Purifier} (goesOn : GoesOn begun purifier)
    (step : Step rules program node purifier next) (noInput : node.op ≠ .placeholder) :
    GoesOn begun next := by
  cases step with
  | copied noCall found => exact goesOn.emit (Instruction.op_traverse found ▸ noInput) _ _ _
  | folded => exact ⟨goesOn.atEnd, goesOn.nodes⟩
  | called isCall hasInfo formed =>
      have inner := Op.isInner_of_isCall ((PureForm.suits_of_ofCall formed).isCall isCall)
      exact goesOn.emit inner.1 _ _ _

end Purifier

/-- Purification first copies the inputs, and adds no input afterwards. -/
theorem exists_copied_of_purify {rules : Rules} {program : Program} {graph : Graph} {tally : Tally}
    (wellFormed : program.graph.WellFormed) (valid : Graph.Valid program.graph.nodes)
    (success : (purify rules program).outcome = .ok (graph, tally)) :
    ∃ begun, (program.graph.inputNodes.foldlM (Purifier.visit rules program) {}).outcome =
        .ok begun ∧
      begun.Copied program.graph.inputNodes ∧ begun.graph.nodes = graph.inputNodes := by
  obtain ⟨others, split, noInput⟩ := valid.arranged.exists_others
  change program.graph.nodes = program.graph.inputNodes ++ others at split
  simp only [purify, split, List.foldlM_append, Report.outcome_bind, Report.outcome_note,
    Report.outcome_pure] at success
  obtain ⟨final, completed, same⟩ := Outcome.bind_eq_ok.mp success
  obtain ⟨begun, first, second⟩ := Outcome.bind_eq_ok.mp completed
  obtain ⟨rfl, -⟩ := Prod.mk.inj (Except.ok.inj same)
  have distinct : (program.graph.inputNodes.map Node.id).Nodup :=
    wellFormed.distinct.sublist (List.filter_sublist.map Node.id)
  have copied : begun.Copied program.graph.inputNodes := by
    refine Report.foldlM_induction (fun visited node rest state next before copied visit => ?_)
      Purifier.copied_start first
    rw [before, List.map_append, List.map_cons, List.nodup_append] at distinct
    refine copied.step (Purifier.step_of_eq_ok visit) ?_ fun member => ?_
    · exact Graph.op_of_mem_inputsOf (before ▸ List.mem_append_right visited List.mem_cons_self)
    · exact distinct.2.2 _ member _ List.mem_cons_self rfl
  have goesOn : Purifier.GoesOn begun final := by
    have start : Purifier.GoesOn begun begun :=
      ⟨copied.atEnd, [], (List.append_nil _).symm, fun _ member => absurd member List.not_mem_nil⟩
    refine @Report.foldlM_induction _ _ _ (fun _ state => Purifier.GoesOn begun state) _
      (fun visited node rest state next split goesOn visit => ?_) _ _ start second
    exact Purifier.GoesOn.step goesOn (Purifier.step_of_eq_ok visit)
      (noInput node (split ▸ List.mem_append_right visited List.mem_cons_self))
  obtain ⟨added, nodes, noneAdded⟩ := goesOn.nodes
  refine ⟨begun, first, copied, ?_⟩
  rw [Graph.inputNodes, nodes, Graph.inputsOf_append, Graph.inputsOf_eq_self copied.isInput,
    Graph.inputsOf_eq_nil noneAdded, List.append_nil]

/-! ### Names of inputs -/

/-- Base names that are distinct are given as they are. -/
theorem map_givenName_of_nodup {bases : List String} (distinct : bases.Nodup) :
    (List.range bases.length).map (givenName bases) = bases := by
  refine List.ext_getElem (by simp) fun index _ listed => ?_
  have base : bases.getD index "" = bases[index] := by
    rw [List.getD_eq_getElem?_getD, List.getElem?_eq_getElem listed, Option.getD_some]
  have first : earlierUses bases index = 0 := by
    rw [earlierUses, base, List.count_eq_zero, List.mem_take_iff_getElem]
    rintro ⟨earlier, before, same⟩
    have equal := (List.Nodup.getElem_inj_iff distinct).mp same
    omega
  rw [List.getElem_map, List.getElem_range, givenName_of_first first, base]

/-- A name that can be given to a new input. -/
def IsInputName (name : String) : Prop :=
  ∃ (graph : Graph) (hint : Option String),
    name = graph.freshName (Graph.baseName .placeholder hint)

theorem dot_not_mem_flatten (name : String) : '.' ∉ (Dotted.flatten name).toList := by
  rw [Dotted.flatten, String.toList_map, List.mem_map]
  rintro ⟨character, -, same⟩
  split at same
  · cases same
  · next other => exact other same

theorem flatten_eq_self {name : String} (noDot : '.' ∉ name.toList) :
    Dotted.flatten name = name := by
  rw [← String.toList_inj, Dotted.flatten, String.toList_map]
  refine (List.map_congr_left fun character member => ?_).trans (List.map_id _)
  have different : character ≠ '.' := fun same => noDot (same ▸ member)
  exact if_neg different

theorem dot_not_mem_numberedName {base : String} (noDot : '.' ∉ base.toList) (uses : Nat) :
    '.' ∉ (numberedName base uses).toList := by
  cases uses with
  | zero => exact noDot
  | succ uses =>
      have noDigit : '.' ∉ Nat.toDigits 10 (uses + 1) := fun member =>
        absurd (Nat.isDigit_of_mem_toDigits (by decide) (by decide) member) (by decide)
      simpa [numberedName, Nat.toString_eq_repr, Nat.toList_repr, noDot] using noDigit

theorem IsInputName.flatten_eq {name : String} (isName : IsInputName name) :
    Dotted.flatten name = name := by
  obtain ⟨graph, hint, rfl⟩ := isName
  rw [Graph.freshName_eq]
  refine flatten_eq_self (dot_not_mem_numberedName ?_ _)
  cases hint with
  | none => decide
  | some name => exact dot_not_mem_flatten name

/-- The copies of inputs carry their records. -/
theorem Purifier.Copied.records {inputs : List Node} {purifier : Purifier}
    (copied : purifier.Copied inputs) :
    purifier.graph.nodes.map (fun node => node.info) = inputs.map fun node => node.info := by
  have each := copied.copies.imp fun _ _ stands => stands.1
  rw [← List.forall₂_eq_eq_eq, List.forall₂_map_left_iff, List.forall₂_map_right_iff]
  exact each.flip

/-- The copies of inputs have the names that these hand on. -/
theorem Purifier.Copied.names {inputs : List Node} {purifier : Purifier}
    (copied : purifier.Copied inputs) :
    purifier.graph.nodes.map Node.name =
      (List.range inputs.length).map (givenName (inputs.map inputBase)) := by
  have indices : purifier.graph.nodes.map (fun node => node.id.index) =
      List.range inputs.length := by
    have same := congrArg (List.map NodeId.index) copied.ids
    rw [Graph.ids, List.map_map, List.map_map] at same
    exact same.trans (List.map_id _)
  rw [← indices, List.map_map]
  exact List.map_congr_left fun node member => (copied.named.names node member).2

namespace Graph

/-- The inputs of a graph stand for those of another one: they carry the same records in the same
order, and the same names if these were given to inputs and are distinct. -/
structure KeepsInputs (source result : Graph) : Prop where
  records : result.inputNodes.map (fun node => node.info) =
    source.inputNodes.map fun node => node.info
  names : (∀ node ∈ source.inputNodes, IsInputName node.name) →
    (source.inputNodes.map Node.name).Nodup →
      result.inputNodes.map Node.name = source.inputNodes.map Node.name

theorem keepsInputs_of_eq {source result : Graph} (same : result.inputNodes = source.inputNodes) :
    source.KeepsInputs result :=
  ⟨same ▸ rfl, fun _ _ => same ▸ rfl⟩

theorem KeepsInputs.trans {source middle result : Graph} (early : source.KeepsInputs middle)
    (late : middle.KeepsInputs result) : source.KeepsInputs result := by
  refine ⟨late.records.trans early.records, fun isName distinct => ?_⟩
  have same := early.names isName distinct
  have given : ∀ name ∈ source.inputNodes.map Node.name, IsInputName name :=
    List.forall_mem_map.mpr isName
  rw [← same] at given distinct
  rw [late.names (List.forall_mem_map.mp given) distinct, same]

end Graph

theorem keepsInputs_purify {rules : Rules} {program : Program} {graph : Graph} {tally : Tally}
    (wellFormed : program.graph.WellFormed) (valid : Graph.Valid program.graph.nodes)
    (success : (purify rules program).outcome = .ok (graph, tally)) :
    program.graph.KeepsInputs graph := by
  obtain ⟨begun, -, copied, nodes⟩ := exists_copied_of_purify wellFormed valid success
  refine ⟨nodes ▸ copied.records, fun isName distinct => ?_⟩
  have bases : program.graph.inputNodes.map Purifier.inputBase =
      program.graph.inputNodes.map Node.name :=
    List.map_congr_left fun node member => (isName node member).flatten_eq
  have kept := map_givenName_of_nodup distinct
  rw [List.length_map] at kept
  rw [← nodes, copied.names, bases, kept]

/-! ### Pipelines -/

/-- A committed graph is the one that there was or the one that came out. -/
theorem Pass.graph_commit {motive : Graph → Prop} {program : Program} {tally : Tally}
    {report : Report (Graph × Tally)} (same : motive program.graph)
    (result : ∀ graph changed, report.outcome = .ok (graph, changed) → motive graph) :
    motive (commit program tally report).program.graph := by
  unfold commit
  split
  · next graph changed success => exact result graph changed success
  · exact same

theorem Pass.inputNodes_normalization {program : Program} (wellFormed : program.graph.WellFormed)
    (valid : Graph.Valid program.graph.nodes) (rules : Rules) (tally : Tally) :
    ((normalization rules).run program tally).program.graph.inputNodes =
      program.graph.inputNodes := by
  refine @Pass.graph_commit (fun graph => graph.inputNodes = program.graph.inputNodes) _ _ _ rfl
    fun graph changed success => ?_
  rw [Report.outcome_bind] at success
  obtain ⟨result, normalized, same⟩ := Outcome.bind_eq_ok.mp success
  obtain ⟨rfl, -⟩ := Prod.mk.inj (Except.ok.inj same)
  exact inputNodes_normalize wellFormed valid normalized

theorem Pass.inputNodes_storageReuse {program : Program} (wellFormed : program.graph.WellFormed)
    (valid : Graph.Valid program.graph.nodes) (rules : Rules) (accepts : Signatures)
    (tally : Tally) :
    ((storageReuse rules accepts).run program tally).program.graph.inputNodes =
      program.graph.inputNodes := by
  rcases reuseInPlace_cases wellFormed rules accepts with
    ⟨cause, -, left⟩ | ⟨graph, calls, -, left, success⟩
  · simp only [Pass.storageReuse, left]
  · simp only [Pass.storageReuse, left]
    exact inputNodes_reuseStorage wellFormed valid success

theorem Pass.keepsInputs_purification {program : Program} (wellFormed : program.graph.WellFormed)
    (valid : Graph.Valid program.graph.nodes) (rules : Rules) (tally : Tally) :
    program.graph.KeepsInputs ((purification rules).run program tally).program.graph := by
  refine @Pass.graph_commit program.graph.KeepsInputs _ _ _ (Graph.keepsInputs_of_eq rfl)
    fun graph changed success => ?_
  rw [Report.outcome_bind] at success
  obtain ⟨result, purified, same⟩ := Outcome.bind_eq_ok.mp success
  obtain ⟨rfl, -⟩ := Prod.mk.inj (Except.ok.inj same)
  exact keepsInputs_purify wellFormed valid purified

/-- What holds of a valid graph and is kept by every pass holds of what a pipeline leaves. -/
theorem Pipeline.graph_runFrom {motive : Graph → Prop} {pipeline : Pipeline}
    (step : ∀ pass ∈ pipeline, ∀ program tally, program.graph.WellFormed →
      Graph.Valid program.graph.nodes → motive program.graph →
        motive (pass.run program tally).program.graph)
    (each : ∀ pass ∈ pipeline, pass.IsTransformation) {program : Program}
    (wellFormed : program.graph.WellFormed) (valid : Graph.Valid program.graph.nodes)
    (initial : motive program.graph) (tally : Tally) :
    motive (pipeline.runFrom program tally).program.graph := by
  induction pipeline generalizing program tally with
  | nil => exact initial
  | cons pass later ih =>
      have sound := (each pass List.mem_cons_self).sound_run wellFormed valid tally
      have next := step pass List.mem_cons_self program tally wellFormed valid initial
      rw [runFrom]
      dsimp only
      split
      · exact next
      · exact next
      · exact ih (fun other member => step other (List.mem_cons_of_mem _ member))
          (fun other member => each other (List.mem_cons_of_mem _ member)) sound.wellFormed
          sound.valid next (pass.run program tally).tally

/-- Normalization and storage reuse leave the inputs of a valid graph as they are.  Purification
copies them before any other node, each to an input with the same record, and keeps their names if
these were given to inputs and are distinct.  So a pipeline of these passes keeps the inputs, and
leaves them as they are if it does not purify. -/
theorem passes_preserve_inputs {program : Program} (wellFormed : program.graph.WellFormed)
    (valid : program.graph.validate = .ok ()) :
    (∀ rules graph, (normalize rules program).outcome = .ok graph →
      graph.placeholders = program.graph.placeholders ∧
        graph.inputNodes = program.graph.inputNodes) ∧
    (∀ rules accepts graph calls, reuseStorage rules accepts program = .ok (graph, calls) →
      graph.placeholders = program.graph.placeholders ∧
        graph.inputNodes = program.graph.inputNodes) ∧
    (∀ rules graph tally, (purify rules program).outcome = .ok (graph, tally) →
      program.graph.KeepsInputs graph ∧
        ∃ begun, (program.graph.inputNodes.foldlM (Purifier.visit rules program) {}).outcome =
            .ok begun ∧
          List.Forall₂ (fun old new => begun.env[old.id]? = some (.ref new.id))
            program.graph.inputNodes graph.inputNodes) ∧
    ∀ pipeline : Pipeline, (∀ pass ∈ pipeline, pass.IsTransformation) →
      program.graph.KeepsInputs (pipeline.run program).program.graph ∧
        ((∀ pass ∈ pipeline, ∀ rules, pass ≠ .purification rules) →
          (pipeline.run program).program.graph.inputNodes = program.graph.inputNodes) := by
  have validNodes := Graph.validate_eq_ok_iff.mp valid
  refine ⟨fun rules graph success => ?_, fun rules accepts graph calls success => ?_,
    fun rules graph tally success => ?_, fun pipeline each => ⟨?_, fun unpurified => ?_⟩⟩
  · have same := inputNodes_normalize wellFormed validNodes success
    exact ⟨congrArg (List.map Node.id) same, same⟩
  · have same := inputNodes_reuseStorage wellFormed validNodes success
    exact ⟨congrArg (List.map Node.id) same, same⟩
  · obtain ⟨begun, visited, copied, nodes⟩ := exists_copied_of_purify wellFormed validNodes success
    refine ⟨keepsInputs_purify wellFormed validNodes success, begun, visited, ?_⟩
    rw [← nodes]
    exact copied.copies.imp fun _ _ stands => stands.2
  · refine Pipeline.graph_runFrom (fun pass member current tally inOrder isValid kept => ?_)
      each wellFormed validNodes (Graph.keepsInputs_of_eq rfl) ∅
    refine kept.trans ?_
    cases each pass member with
    | normalization rules =>
        exact Graph.keepsInputs_of_eq (Pass.inputNodes_normalization inOrder isValid rules tally)
    | storageReuse rules accepts =>
        exact Graph.keepsInputs_of_eq
          (Pass.inputNodes_storageReuse inOrder isValid rules accepts tally)
    | purification rules => exact Pass.keepsInputs_purification inOrder isValid rules tally
  · refine @Pipeline.graph_runFrom (fun graph => graph.inputNodes = program.graph.inputNodes) _
      (fun pass member current tally inOrder isValid kept => ?_) each _ wellFormed validNodes
      rfl ∅
    refine Eq.trans ?_ kept
    cases each pass member with
    | normalization rules => exact Pass.inputNodes_normalization inOrder isValid rules tally
    | storageReuse rules accepts =>
        exact Pass.inputNodes_storageReuse inOrder isValid rules accepts tally
    | purification rules => exact absurd rfl (unpurified _ member rules)

/-- Two inputs, of which the first is changed in place. -/
def changedInput : Program where
  graph :=
    { nodes :=
        [{ op := .placeholder, id := ⟨0⟩, name := "x", info := some {} },
          { op := .placeholder, id := ⟨1⟩, name := "x_1" },
          { op := .callFunction ⟨"torch.relu"⟩, args := [.ref ⟨0⟩],
            kwargs := (∅ : Kwargs NodeId).insert Rules.inplaceKeyword (.literal (.bool true)),
            id := ⟨2⟩,
            name := "relu",
            info := some { isMutation := true } },
          { op := .output, args := [.ref ⟨0⟩], id := ⟨3⟩, name := "output" }]
      created := 4 }

theorem changedInput_preserves_inputs :
    changedInput.graph.validate = .ok () ∧
      (∃ graph tally, (purify {} changedInput).outcome = .ok (graph, tally) ∧
        graph.inputNodes.map Node.name = ["x", "x_1"]) ∧
      (Pipeline.run [.storageReuse {} fun _ => true, .normalization {}]
        changedInput).program.graph.inputNodes = changedInput.graph.inputNodes := by
  have valid : changedInput.graph.validate = .ok () := by decide
  obtain ⟨-, -, purification, pipeline⟩ :=
    passes_preserve_inputs ⟨by decide, by decide⟩ valid
  obtain ⟨⟨graph, tally⟩, purified⟩ : ∃ result,
      (purify {} changedInput).outcome = .ok result := ⟨_, rfl⟩
  refine ⟨valid, ⟨graph, tally, purified, ?_⟩, ?_⟩
  · have names : changedInput.graph.inputNodes.map Node.name = ["x", "x_1"] := rfl
    have given : ∀ name ∈ ["x", "x_1"], IsInputName name :=
      List.forall_mem_cons.mpr ⟨⟨{}, some "x", by cbv⟩,
        List.forall_mem_singleton.mpr ⟨{}, some "x_1", by cbv⟩⟩
    rw [← names] at given ⊢
    exact (purification _ _ _ purified).1.names (List.forall_mem_map.mp given)
      (names ▸ by decide)
  · refine (pipeline _ fun pass member => ?_).2 fun pass member rules => ?_
    · simp only [List.mem_cons, List.not_mem_nil, or_false] at member
      rcases member with rfl | rfl
      · exact .storageReuse _ _
      · exact .normalization _
    · simp only [List.mem_cons, List.not_mem_nil, or_false] at member
      rcases member with rfl | rfl
      · intro same
        exact absurd (congrArg Pass.name same) (by decide : "inplace" ≠ "functionalize")
      · intro same
        exact absurd (congrArg Pass.name same) (by decide : "normalize" ≠ "functionalize")

end OpGraph
