import OpGraph.Proofs.StaleReads

/-!
# Which calls reuse storage

A call is changed if and only if the source says so: its function need not stay pure, and it has one
argument whose storage has expired, or it is elementwise, has two, and the first one has expired and
can be overwritten (`Node.Reuses`).  Storage has expired behind a call when only calls share it and
no later node reads from it (`Storage.Expired`).  What the walk has done to later nodes by the time
it comes to a call does not matter.
-/

namespace OpGraph

/-! ### Expired storage -/

namespace Storage

variable {rules : Rules} {submodules : Forest} {storage : Storage} {nodes later : List Node}
variable {id : NodeId}

/-- Only calls share the storage of a value, and none of the nodes `later` reads from it. -/
structure Expired (storage : Storage) (nodes later : List Node) (id : NodeId) : Prop where
  unobserved : ∀ node ∈ nodes, storage.together node.id id = true → node.op.isCall = true
  unread : ∀ reader ∈ later, ∀ input ∈ reader.inputs, storage.together input id = false

theorem together_of_owner {left right owner : NodeId} (isLeft : storage.owner[left]? = some owner)
    (isRight : storage.owner[right]? = some owner) : storage.together left right = true := by
  rw [together, isLeft, isRight]
  exact decide_eq_true rfl

theorem inUse_place {first next : Storage} {node : Node}
    (success : place rules submodules first node = .ok next) {owner : NodeId}
    (used : next.inUse.contains owner = true) :
    first.inUse.contains owner = true ∨ node.id = owner ∧ node.op.isCall = false := by
  unfold place at success
  split at success
  · obtain ⟨shared, -, rest⟩ := Outcome.bind_eq_ok.mp success
    left
    cases shared with
    | none =>
        rw [← Except.ok.inj rest] at used
        exact used
    | some target =>
        rw [← Except.ok.inj rest, share] at used
        split at used <;> exact used
  · next noCall =>
    rw [← Except.ok.inj success, pin, Std.ExtTreeSet.contains_insert, Bool.or_eq_true] at used
    rcases used with isNode | used
    · refine Or.inr ⟨Std.LawfulEqOrd.eq_of_compare (beq_iff_eq.mp isNode), ?_⟩
      exact Bool.eq_false_of_not_eq_true noCall
    · exact Or.inl used

/-- Storage in use belongs to a node that is no call. -/
theorem exists_of_inUse {first : Storage}
    (success : nodes.foldlM (place rules submodules) first = .ok storage) {owner : NodeId}
    (used : storage.inUse.contains owner = true) :
    first.inUse.contains owner = true ∨
      ∃ node ∈ nodes, node.id = owner ∧ node.op.isCall = false := by
  induction nodes generalizing first with
  | nil =>
      rw [← Except.ok.inj success] at used
      exact Or.inl used
  | cons node rest ih =>
      rw [List.foldlM_cons] at success
      obtain ⟨next, placed, later⟩ := Outcome.bind_eq_ok.mp success
      rcases ih later with usedNext | ⟨other, isLater, isOwner⟩
      · refine (inUse_place placed usedNext).imp_right fun isOwner => ?_
        exact ⟨node, List.mem_cons_self, isOwner⟩
      · exact Or.inr ⟨other, List.mem_cons_of_mem _ isLater, isOwner⟩

/-- The storage of a node is idle if and only if it has expired. -/
theorem idle_iff_expired (success : nodes.foldlM (place rules submodules) {} = .ok storage)
    (describes : Describes rules submodules storage nodes) (isNode : id ∈ nodes.map Node.id) :
    storage.Idle later id ↔ storage.Expired nodes later id := by
  obtain ⟨owner, -, isOwner⟩ :=
    describes.inside nodes [] (List.append_nil nodes).symm id isNode
  constructor
  · rintro ⟨free, unread⟩
    refine ⟨fun node isNode same => describes.isCall_of_together free isNode same, ?_⟩
    intro reader isLater input isInput
    refine Bool.eq_false_of_not_eq_true fun same => unread reader isLater input isInput ?_
    obtain ⟨other, isOther, same⟩ := together_eq_true same
    rw [isOther, same]
  · rintro ⟨unobserved, unread⟩
    constructor
    · rw [isFree, isOwner, Bool.not_eq_true']
      refine Bool.eq_false_of_not_eq_true fun used => ?_
      obtain ⟨node, isMember, rfl, noCall⟩ := (exists_of_inUse success used).resolve_left (by simp)
      obtain ⟨before, after, split⟩ := List.append_of_mem isMember
      have alone : (node.placement rules submodules).target? = none := by
        rw [Node.placement_eq_fresh noCall]
        rfl
      have isCall := unobserved node isMember
        (together_of_owner (describes.fresh before node after split alone) isOwner)
      cases noCall.symm.trans isCall
    · intro reader isLater input isInput same
      have together := together_of_owner (same.trans isOwner) isOwner
      cases (unread reader isLater input isInput).symm.trans together

end Storage

/-! ### Plans -/

/-- All arguments of a call, positional or by keyword, but for its flag. -/
def Instruction.arguments (instruction : Instruction) : List Arg :=
  instruction.args ++ (instruction.kwargs.erase Rules.inplaceKeyword).values

theorem Instruction.mem_inputs_of_args {instruction : Instruction} {first : NodeId}
    {others : List Arg} (args : instruction.args = .ref first :: others) :
    first ∈ instruction.inputs := by
  refine mem_inputs_of_firstRef? ?_
  rw [firstRef?, args]
  rfl

/-- The second argument of an elementwise call lets the call write over the first one: it is a
literal, or a value of the shape of the result that lies in other storage. -/
inductive Storage.Spares (storage : Storage) (graph : Graph) (shape : List Nat) (first : NodeId) :
    Arg → Prop where
  | literal (value : Literal) : Spares storage graph shape first (.literal value)
  | ref {second : NodeId} (apart : storage.together first second = false)
      (sameShape : graph.shapeOf? second = some shape) :
      Spares storage graph shape first (.ref second)

/-- The call of a function that need not stay pure can write into the storage of an argument, and is
told so by the given keyword arguments. -/
inductive Node.Reuses (rules : Rules) (accepts : Signatures) (graph : Graph) (storage : Storage)
    (later : List Node) (node : Node) : Kwargs NodeId → Prop where
  /-- By a flag, if there is one argument and the function knows the flag. -/
  | flag {function : FunctionPath} {operand : NodeId}
      (isFunction : node.op = .callFunction function) (impure : rules.staysPure function = false)
      (only : node.toInstruction.arguments = [.ref operand])
      (expired : storage.Expired graph.nodes later operand)
      (flagged : rules.flagFunctions.contains function = true) :
      Reuses rules accepts graph storage later node
        (node.kwargs.insert Rules.inplaceKeyword (.literal (.bool true)))
  /-- By a receiver, if there is one argument and the function accepts that but knows no flag. -/
  | receiver {function : FunctionPath} {operand : NodeId}
      (isFunction : node.op = .callFunction function) (impure : rules.staysPure function = false)
      (only : node.toInstruction.arguments = [.ref operand])
      (expired : storage.Expired graph.nodes later operand)
      (unflagged : rules.flagFunctions.contains function = false)
      (accepting : accepts function = true) :
      Reuses rules accepts graph storage later node
        ((node.kwargs.erase Rules.inplaceKeyword).insert Rules.outKeyword (.ref operand))
  /-- By a receiver, if there are two positional arguments and no others, and the function works
  elementwise on values of one shape. -/
  | elementwise {function : FunctionPath} {first : NodeId} {second : Arg} {shape : List Nat}
      (isFunction : node.op = .callFunction function) (impure : rules.staysPure function = false)
      (args : node.args = [.ref first, second])
      (positional : node.kwargs.erase Rules.inplaceKeyword = ∅)
      (elementwise : rules.elementwiseFunctions.contains function = true)
      (accepting : accepts function = true)
      (expired : storage.Expired graph.nodes later first)
      (known : node.info.bind ValueInfo.shape = some shape)
      (sameShape : graph.shapeOf? first = some shape)
      (spares : storage.Spares graph shape first second) :
      Reuses rules accepts graph storage later node
        ((node.kwargs.erase Rules.inplaceKeyword).insert Rules.outKeyword (.ref first))

namespace ReusePlan

variable {rules : Rules} {accepts : Signatures} {graph : Graph} {storage : Storage}
variable {function : FunctionPath} {kwargs result : Kwargs NodeId}

theorem onlyArgument?_eq_some_iff {args : List Arg} {argument : Arg} :
    onlyArgument? args kwargs = some argument ↔ args ++ kwargs.values = [argument] := by
  unfold onlyArgument?
  generalize kwargs.values = others
  rcases args with _ | ⟨first, _ | ⟨second, rest⟩⟩
  · rcases others with _ | ⟨only, _ | ⟨another, more⟩⟩ <;> simp
  · rcases others with _ | ⟨only, more⟩ <;> simp
  · simp

theorem mem_inputs_of_only {instruction : Instruction} {operand : NodeId}
    (only : instruction.arguments = [.ref operand]) : operand ∈ instruction.inputs :=
  mem_inputs_of_onlyArgument? (onlyArgument?_eq_some_iff.mpr only) (List.mem_singleton_self operand)

theorem kwargs_unary?_eq_some_iff {argument : Arg} :
    (unary? rules accepts storage function argument kwargs).map ReusePlan.kwargs = some result ↔
      ∃ operand, argument = .ref operand ∧ storage.isFree operand = true ∧
        (rules.flagFunctions.contains function = true ∧
            kwargs.insert Rules.inplaceKeyword (.literal (.bool true)) = result ∨
          rules.flagFunctions.contains function = false ∧ accepts function = true ∧
            kwargs.insert Rules.outKeyword (.ref operand) = result) := by
  unfold unary?
  cases argument with
  | literal value => simp
  | tuple items => simp
  | ref id =>
      cases storage.isFree id <;> cases rules.flagFunctions.contains function <;>
        cases accepts function <;> simp

theorem admitsSecond_eq_true_iff {shape : List Nat} {first : NodeId} {second : Arg} :
    admitsSecond graph storage shape first second = true ↔
      storage.Spares graph shape first second := by
  cases second with
  | literal value => exact ⟨fun _ => .literal value, fun _ => rfl⟩
  | tuple items => exact ⟨nofun, nofun⟩
  | ref id =>
      rw [admitsSecond, Bool.and_eq_true, Bool.not_eq_true', beq_iff_eq]
      refine ⟨fun both => .ref both.1 both.2, fun spares => ?_⟩
      cases spares with
      | ref apart sameShape => exact ⟨apart, sameShape⟩

theorem admitsBinary_eq_true_iff {info : Option ValueInfo} {first second : Arg} :
    admitsBinary graph storage info first second = true ↔
      ∃ operand shape, first = .ref operand ∧ storage.isFree operand = true ∧
        info.bind ValueInfo.shape = some shape ∧ graph.shapeOf? operand = some shape ∧
          storage.Spares graph shape operand second := by
  unfold admitsBinary
  cases first with
  | literal value => simp
  | tuple items => simp
  | ref id =>
      cases info.bind ValueInfo.shape with
      | none => simp
      | some shape =>
          simp only [Bool.and_eq_true, beq_iff_eq, admitsSecond_eq_true_iff]
          grind

theorem kwargs_binary?_eq_some_iff {instruction : Instruction} :
    (binary? rules accepts graph storage function instruction kwargs).map ReusePlan.kwargs =
        some result ↔
      ∃ first second, instruction.args = [first, second] ∧ kwargs = ∅ ∧
        rules.elementwiseFunctions.contains function = true ∧ accepts function = true ∧
          admitsBinary graph storage instruction.info first second = true ∧
            kwargs.insert Rules.outKeyword first = result := by
  unfold binary?
  split
  · next first second args =>
    rw [args]
    split
    · next admitted =>
      simp only [Bool.and_eq_true, Std.ExtTreeMap.isEmpty_iff] at admitted
      simp [admitted]
    · next refused =>
      simp only [Bool.and_eq_true, Std.ExtTreeMap.isEmpty_iff] at refused
      grind
  · next other =>
    simp only [Option.map_none]
    grind

/-- A call whose function need not stay pure is planned for by its only argument, and else by its
two arguments. -/
theorem kwargs_of?_eq_some_iff {instruction : Instruction} :
    (of? rules accepts graph storage function instruction).map ReusePlan.kwargs = some result ↔
      rules.staysPure function = false ∧
        ((∃ argument, instruction.arguments = [argument] ∧
            (unary? rules accepts storage function argument
              (instruction.kwargs.erase Rules.inplaceKeyword)).map ReusePlan.kwargs =
                some result) ∨
          ((∀ argument, instruction.arguments ≠ [argument]) ∧
            (binary? rules accepts graph storage function instruction
              (instruction.kwargs.erase Rules.inplaceKeyword)).map ReusePlan.kwargs =
                some result)) := by
  have only : ∀ argument, onlyArgument? instruction.args
      (instruction.kwargs.erase Rules.inplaceKeyword) = some argument ↔
        instruction.arguments = [argument] := fun _ => onlyArgument?_eq_some_iff
  rw [of?]
  cases rules.staysPure function with
  | true => simp
  | false =>
      cases found : onlyArgument? instruction.args
          (instruction.kwargs.erase Rules.inplaceKeyword) with
      | none =>
          have several : ∀ argument, instruction.arguments ≠ [argument] := by
            intro argument single
            cases found.symm.trans ((only argument).mpr single)
          simp [found, several]
      | some argument =>
          have single := (only argument).mp found
          simp [found, single]

end ReusePlan

theorem Kwargs.insert_erase (kwargs : Kwargs NodeId) (keyword : String) (argument : Arg) :
    ((kwargs.erase keyword).insert keyword argument : Kwargs NodeId) =
      kwargs.insert keyword argument := by
  apply Std.ExtTreeMap.ext_getElem?
  intro other
  simp only [Std.ExtTreeMap.getElem?_insert, Std.ExtTreeMap.getElem?_erase]
  split <;> rfl

theorem Storage.together_readBy (storage : Storage) (nodes : List Node) (left right : NodeId) :
    (storage.readBy nodes).together left right = storage.together left right := by
  rw [together, together, owner_readBy]

theorem Storage.spares_readBy {storage : Storage} {nodes : List Node} {graph : Graph}
    {shape : List Nat} {first : NodeId} {second : Arg} :
    (storage.readBy nodes).Spares graph shape first second ↔
      storage.Spares graph shape first second := by
  constructor
  · rintro (value | ⟨apart, sameShape⟩)
    · exact .literal value
    · exact .ref (together_readBy storage nodes .. ▸ apart) sameShape
  · rintro (value | ⟨apart, sameShape⟩)
    · exact .literal value
    · exact .ref ((together_readBy storage nodes ..).trans apart) sameShape

/-- There is a plan for a node if and only if the node can reuse storage, provided that storage is
free when it has expired. -/
theorem Node.kwargs_reusePlan?_eq_some_iff {rules : Rules} {accepts : Signatures} {graph : Graph}
    {storage : Storage} {later : List Node} {node : Node} {kwargs : Kwargs NodeId}
    (free : ∀ id ∈ node.inputs, (storage.readBy later).isFree id = true ↔
      storage.Expired graph.nodes later id) :
    (node.reusePlan? rules accepts graph (storage.readBy later)).map ReusePlan.kwargs =
        some kwargs ↔ node.Reuses rules accepts graph storage later kwargs := by
  constructor
  · intro found
    obtain ⟨plan, planned, -⟩ := Option.map_eq_some_iff.mp found
    obtain ⟨function, isFunction, -⟩ := reusePlan?_eq_some planned
    rw [reusePlan?, isFunction] at found
    obtain ⟨impure, ⟨argument, only, unary⟩ | ⟨-, binary⟩⟩ :=
      ReusePlan.kwargs_of?_eq_some_iff.mp found
    · obtain ⟨operand, rfl, isFree, told⟩ := ReusePlan.kwargs_unary?_eq_some_iff.mp unary
      have expired := (free operand (ReusePlan.mem_inputs_of_only only)).mp isFree
      rcases told with ⟨flagged, rfl⟩ | ⟨unflagged, accepting, rfl⟩
      · rw [Kwargs.insert_erase]
        exact .flag isFunction impure only expired flagged
      · exact .receiver isFunction impure only expired unflagged accepting
    · obtain ⟨_, second, args, positional, elementwise, accepting, admits, rfl⟩ :=
        ReusePlan.kwargs_binary?_eq_some_iff.mp binary
      obtain ⟨first, shape, rfl, isFree, known, sameShape, spares⟩ :=
        ReusePlan.admitsBinary_eq_true_iff.mp admits
      have expired := (free first (Instruction.mem_inputs_of_args args)).mp isFree
      exact .elementwise isFunction impure args positional elementwise accepting expired known
        sameShape (Storage.spares_readBy.mp spares)
  · intro reuses
    cases reuses with
    | @flag function operand isFunction impure only expired flagged =>
        have isFree := (free operand (ReusePlan.mem_inputs_of_only only)).mpr expired
        rw [reusePlan?, isFunction, ← Kwargs.insert_erase]
        refine ReusePlan.kwargs_of?_eq_some_iff.mpr ⟨impure, Or.inl ⟨_, only, ?_⟩⟩
        exact ReusePlan.kwargs_unary?_eq_some_iff.mpr
          ⟨operand, rfl, isFree, Or.inl ⟨flagged, rfl⟩⟩
    | @receiver function operand isFunction impure only expired unflagged accepting =>
        have isFree := (free operand (ReusePlan.mem_inputs_of_only only)).mpr expired
        rw [reusePlan?, isFunction]
        refine ReusePlan.kwargs_of?_eq_some_iff.mpr ⟨impure, Or.inl ⟨_, only, ?_⟩⟩
        exact ReusePlan.kwargs_unary?_eq_some_iff.mpr
          ⟨operand, rfl, isFree, Or.inr ⟨unflagged, accepting, rfl⟩⟩
    | @elementwise function first second shape isFunction impure args positional elementwise
        accepting expired known sameShape spares =>
        have isFree := (free first (Instruction.mem_inputs_of_args args)).mpr expired
        have several : ∀ argument, node.toInstruction.arguments ≠ [argument] := by
          intro argument single
          rw [Instruction.arguments, args] at single
          cases single
        rw [reusePlan?, isFunction]
        refine ReusePlan.kwargs_of?_eq_some_iff.mpr ⟨impure, Or.inr ⟨several, ?_⟩⟩
        refine ReusePlan.kwargs_binary?_eq_some_iff.mpr
          ⟨_, second, args, positional, elementwise, accepting, ?_, rfl⟩
        exact ReusePlan.admitsBinary_eq_true_iff.mpr
          ⟨first, shape, rfl, isFree, known, sameShape, Storage.spares_readBy.mpr spares⟩

/-- There is a plan for a node of a valid graph if and only if the node can reuse storage. -/
theorem Storage.reuses_iff {rules : Rules} {accepts : Signatures} {submodules : Forest}
    {graph : Graph} {storage : Storage} {later : List Node} {node : Node} {kwargs : Kwargs NodeId}
    (analysed : graph.nodes.foldlM (place rules submodules) {} = .ok storage)
    (wellFormed : graph.WellFormed) (valid : Graph.Valid graph.nodes)
    (isNode : node ∈ graph.nodes) :
    (node.reusePlan? rules accepts graph (storage.readBy later)).map ReusePlan.kwargs =
        some kwargs ↔ node.Reuses rules accepts graph storage later kwargs := by
  refine Node.kwargs_reusePlan?_eq_some_iff fun id isInput => ?_
  rw [isFree_readBy]
  exact idle_iff_expired analysed (describes analysed wellFormed.distinct valid.closed)
    (valid.closed.mem_ids isNode isInput)

/-! ### The decisions -/

/-- The node at a position is turned according to the nodes behind it. -/
theorem Graph.Turned.at_position {rules : Rules} {accepts : Signatures} {graph : Graph}
    {storage : Storage} {rename : NodeId → NodeId} {sources news : List Node}
    (turned : Graph.Turned rules accepts graph storage rename sources news) {position : Nat}
    {source new : Node} (isSource : sources[position]? = some source)
    (isNew : news[position]? = some new) :
    source.Turned rename (source.reusePlan? rules accepts graph
      (storage.readBy (sources.drop (position + 1)))) new := by
  induction turned generalizing position with
  | nil => cases isSource
  | cons first _ ih =>
      cases position with
      | zero =>
          obtain rfl := Option.some.inj isSource
          obtain rfl := Option.some.inj isNew
          exact first
      | succ position => exact ih isSource isNew

/-- Storage reuse keeps the number of nodes, and at every position the operation and, under the
names `rename`, the positional arguments.  A node gets another identity if and only if, by the
storage of the source, it is a call that can reuse storage, and then it is told so and marked.  Any
other node also keeps its name, its keyword arguments and what is known of its value. -/
theorem storage_reuse_decided_by_source {rules : Rules} {accepts : Signatures} {program : Program}
    {graph : Graph} {calls : List ReusedCall} (wellFormed : program.graph.WellFormed)
    (valid : program.graph.validate = .ok ())
    (success : reuseStorage rules accepts program = .ok (graph, calls)) :
    ∃ (storage : Storage) (rename : NodeId → NodeId),
      Storage.ofProgram rules program = .ok storage ∧
      graph.nodes.length = program.graph.nodes.length ∧
      ∀ (position : Nat) (source new : Node), program.graph.nodes[position]? = some source →
        graph.nodes[position]? = some new →
        let later := program.graph.nodes.drop (position + 1)
        let image := fun id => Argument.ref (rename id)
        new.id = rename source.id ∧ new.op = source.op ∧
        new.args = Argument.bindAll image source.args ∧
        (new.id ≠ source.id ↔
          ∃ kwargs, source.Reuses rules accepts program.graph storage later kwargs) ∧
        (new.id = source.id → new.name = source.name ∧ new.kwargs = source.kwargs.bind image ∧
          new.info = source.info) ∧
        ∀ kwargs, source.Reuses rules accepts program.graph storage later kwargs →
          new.kwargs = kwargs.bind image ∧
            new.info = source.info.map fun info => { info with isMutation := true } := by
  have validSource := Graph.validate_eq_ok_iff.mp valid
  obtain ⟨storage, rename, analysed, turned⟩ := exists_turned wellFormed validSource success
  refine ⟨storage, rename, analysed, turned.became.length_eq, ?_⟩
  intro position source new isSource isNew later image
  have here := turned.at_position isSource isNew
  have decided := fun kwargs => @Storage.reuses_iff rules accepts program.submodules program.graph
    storage later source kwargs analysed wellFormed validSource (List.mem_of_getElem? isSource)
  generalize source.reusePlan? rules accepts program.graph (storage.readBy later) = plan?
    at here decided
  cases here with
  | kept same =>
      have never : ∀ kwargs, ¬source.Reuses rules accepts program.graph storage later kwargs :=
        fun kwargs reuses => by cases (decided kwargs).mpr reuses
      refine ⟨same.symm, rfl, rfl, ⟨fun different => absurd rfl different, ?_⟩,
        fun _ => ⟨rfl, rfl, rfl⟩, fun kwargs reuses => (never kwargs reuses).elim⟩
      exact fun ⟨kwargs, reuses⟩ => (never kwargs reuses).elim
  | @changed plan name different =>
      refine ⟨rfl, rfl, rfl, ?_, fun same => absurd same different, ?_⟩
      · exact ⟨fun _ => ⟨plan.kwargs, (decided plan.kwargs).mp rfl⟩, fun _ => different⟩
      · intro kwargs reuses
        obtain rfl := Option.some.inj ((decided kwargs).mpr reuses)
        exact ⟨rfl, rfl⟩

/-- Calls that are told in each way to reuse storage, and two that read the input. -/
def reusingCalls : Program where
  graph :=
    { nodes :=
        [{ op := .placeholder, id := ⟨0⟩, name := "input" },
          { op := .callFunction ⟨"exp"⟩, args := [.ref ⟨0⟩], id := ⟨1⟩, name := "exp" },
          { op := .callFunction ⟨"relu"⟩, args := [.ref ⟨1⟩], id := ⟨2⟩, name := "relu" },
          { op := .callFunction ⟨"tanh"⟩, kwargs := (∅ : Kwargs NodeId).insert "x" (.ref ⟨2⟩),
            info := some { shape := some [2] }, id := ⟨3⟩, name := "tanh" },
          { op := .callFunction ⟨"sin"⟩, args := [.ref ⟨0⟩],
            info := some { shape := some [2] }, id := ⟨4⟩, name := "sin" },
          { op := .callFunction ⟨"add"⟩, args := [.ref ⟨3⟩, .ref ⟨4⟩],
            info := some { shape := some [2] }, id := ⟨5⟩, name := "add" },
          { op := .output, args := [.ref ⟨5⟩], id := ⟨6⟩, name := "output" }]
      created := 7 }

/-- Rules under which they are. -/
def reusingRules : Rules where
  flagFunctions := (∅ : FunctionSet).insert ⟨"relu"⟩
  elementwiseFunctions := (∅ : FunctionSet).insert ⟨"add"⟩

theorem reusingCalls_decided_by_source :
    ∃ storage, Storage.ofProgram reusingRules reusingCalls = .ok storage ∧
      ∀ position source, reusingCalls.graph.nodes[position]? = some source →
        ((∃ kwargs, source.Reuses reusingRules (fun _ => true) reusingCalls.graph storage
          (reusingCalls.graph.nodes.drop (position + 1)) kwargs) ↔ position ∈ [2, 3, 5]) := by
  have ids : (fun result => result.1.ids) <$> reuseStorage reusingRules (fun _ => true)
      reusingCalls = .ok [⟨0⟩, ⟨1⟩, ⟨9⟩, ⟨8⟩, ⟨4⟩, ⟨7⟩, ⟨6⟩] := by decide +kernel
  obtain ⟨⟨graph, calls⟩, success, ids⟩ := Outcome.map_eq_ok.mp ids
  obtain ⟨storage, rename, analysed, length, decided⟩ :=
    storage_reuse_decided_by_source ⟨by decide, by decide⟩ (by decide) success
  refine ⟨storage, analysed, fun position source isSource => ?_⟩
  have inRange : position < 7 := (List.getElem?_eq_some_iff.mp isSource).1
  obtain ⟨new, isNew⟩ : ∃ new, graph.nodes[position]? = some new :=
    ⟨_, List.getElem?_eq_getElem (length ▸ inRange)⟩
  obtain ⟨-, -, -, changed, -⟩ := decided position source new isSource isNew
  have moved : ∀ position < 7, graph.ids[position]? ≠ reusingCalls.graph.ids[position]? ↔
      position ∈ [2, 3, 5] := by
    rw [ids]
    decide
  have different := moved position inRange
  rw [Graph.ids, Graph.ids, List.getElem?_map, List.getElem?_map, isNew, isSource] at different
  rw [← changed, ← different]
  simp

end OpGraph
