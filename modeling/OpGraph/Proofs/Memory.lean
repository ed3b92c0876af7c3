import Mathlib.Data.Set.Insert
import OpGraph.Proofs.Placement

/-!
# Values in storage cells

The value of a node lies in a storage cell.  Inputs and attributes denote cells from outside the
graph, and a call puts its value into a cell of its own, into the cell of an argument, or returns
the cell of an argument without computing anything.  What a call computes is an arbitrary function
of its operation and of the contents of its arguments, apart from those that only say where the
result is put.

Two memories agree (`Memory.Agrees`) when a one-to-one relation links the cells of the nodes that
are known in both, and linked cells have equal contents.  Writing the same value into two cells
links them (`Memory.Agrees.write`), whatever they were linked to before.
-/

namespace OpGraph

/-- A storage cell. -/
inductive Cell where
  /-- A cell from outside the graph. -/
  | outer (index : Nat)
  /-- The cell that has been allocated for the value of a node. -/
  | own (node : NodeId)
deriving DecidableEq

/-- What the operations of a graph mean, with contents of type `V`. -/
structure Interpretation (V : Type) where
  /-- Where a call puts its value. -/
  place : Node → Placement
  /-- The outer cell of the n-th of the inputs and attributes. -/
  layout : Nat → Nat
  /-- What an operation computes from its operands. -/
  compute : Op → Operands V → V

/-- The state of an evaluation. -/
structure Memory (V : Type) where
  /-- The cells in which the values of nodes lie. -/
  place : NodeId → Option Cell := fun _ => none
  /-- The contents of the cells. -/
  content : Cell → V
  /-- The number of inputs and attributes so far. -/
  leaves : Nat := 0
  /-- The contents of the results. -/
  outputs : Option (Operands V) := none

namespace Memory

variable {V : Type}

/-- The cell of a node. -/
def find (memory : Memory V) (id : NodeId) : Except Stuck Cell :=
  match memory.place id with
  | some cell => .ok cell
  | none => .error {}

/-- The content of the cell of a node. -/
def look (memory : Memory V) (id : NodeId) : Except Stuck (Argument V) := do
  let cell ← memory.find id
  return .ref (memory.content cell)

/-- Let the value of a node lie in a cell. -/
def put (memory : Memory V) (id : NodeId) (cell : Cell) : Memory V :=
  { memory with place := Function.update memory.place id (some cell) }

/-- Write the value of a node into a cell. -/
def write (memory : Memory V) (id : NodeId) (cell : Cell) (value : V) : Memory V :=
  { memory.put id cell with content := Function.update memory.content cell value }

variable (interpretation : Interpretation V)

/-- The value of a call. -/
def compute (memory : Memory V) (node : Node) : Except Stuck V := do
  let operands ← node.toInstruction.data.read memory.look
  return interpretation.compute node.op operands

/-- Evaluate a call. -/
def call (memory : Memory V) (node : Node) : Except Stuck (Memory V) :=
  match interpretation.place node with
  | .view base => do
    let cell ← memory.find base
    return memory.put node.id cell
  | .into target => do
    let value ← memory.compute interpretation node
    let cell ← memory.find target
    return memory.write node.id cell value
  | .fresh => do
    let value ← memory.compute interpretation node
    return memory.write node.id (.own node.id) value

/-- Evaluate a node. -/
def exec (memory : Memory V) (node : Node) : Except Stuck (Memory V) :=
  match node.op with
  | .output => do
    let outputs ← node.toInstruction.read memory.look
    return { memory with outputs := some outputs }
  | .placeholder | .getAttr _ =>
    .ok { memory.put node.id (.outer (interpretation.layout memory.leaves)) with
      leaves := memory.leaves + 1 }
  | .callFunction _ | .callMethod _ | .callModule _ => memory.call interpretation node

/-- The contents of the results of a graph and the final contents of the outer cells, from some
contents to begin with. -/
def evaluate (content : Cell → V) (nodes : List Node) :
    Except Stuck (Operands V × (Nat → V)) := do
  let memory ← nodes.foldlM (exec interpretation) { content }
  match memory.outputs with
  | some outputs => return (outputs, fun index => memory.content (.outer index))
  | none => throw {}

variable {interpretation}

theorem find_eq_ok_iff {memory : Memory V} {id : NodeId} {cell : Cell} :
    memory.find id = .ok cell ↔ memory.place id = some cell := by
  unfold find
  split
  · next found => simp [found]
  · next none => simp [none]

theorem look_eq_ok {memory : Memory V} {id : NodeId} {cell : Cell}
    (placed : memory.place id = some cell) :
    memory.look id = .ok (.ref (memory.content cell)) := by
  rw [look, find_eq_ok_iff.mpr placed]
  rfl

theorem exec_output {memory : Memory V} {node : Node} {outputs : Operands V}
    (isOutput : node.op = .output) (read : node.toInstruction.read memory.look = .ok outputs) :
    memory.exec interpretation node = .ok { memory with outputs := some outputs } := by
  rw [exec, isOutput]
  exact Outcome.bind_eq_ok.mpr ⟨outputs, read, rfl⟩

theorem exec_call {memory : Memory V} {node : Node} (isCall : node.op.isCall = true) :
    memory.exec interpretation node = memory.call interpretation node := by
  rw [exec]
  cases op : node.op with
  | placeholder | getAttr | output =>
      rw [op] at isCall
      cases isCall
  | callFunction | callMethod | callModule => rfl

theorem exec_leaf {memory : Memory V} {node : Node} (notCall : node.op.isCall = false)
    (notOutput : node.op ≠ .output) :
    memory.exec interpretation node =
      .ok { memory.put node.id (.outer (interpretation.layout memory.leaves)) with
        leaves := memory.leaves + 1 } := by
  rw [exec]
  cases op : node.op with
  | output => exact absurd op notOutput
  | placeholder | getAttr => rfl
  | callFunction | callMethod | callModule =>
      rw [op] at notCall
      cases notCall

theorem call_view {memory : Memory V} {node : Node} {base : NodeId} {cell : Cell}
    (placement : interpretation.place node = .view base) (found : memory.place base = some cell) :
    memory.call interpretation node = .ok (memory.put node.id cell) := by
  rw [call, placement]
  exact Outcome.bind_eq_ok.mpr ⟨cell, find_eq_ok_iff.mpr found, rfl⟩

theorem call_into {memory : Memory V} {node : Node} {target : NodeId} {cell : Cell} {value : V}
    (placement : interpretation.place node = .into target)
    (computed : memory.compute interpretation node = .ok value)
    (found : memory.place target = some cell) :
    memory.call interpretation node = .ok (memory.write node.id cell value) := by
  rw [call, placement]
  exact Outcome.bind_eq_ok.mpr
    ⟨value, computed, Outcome.bind_eq_ok.mpr ⟨cell, find_eq_ok_iff.mpr found, rfl⟩⟩

theorem call_fresh {memory : Memory V} {node : Node} {value : V}
    (placement : interpretation.place node = .fresh)
    (computed : memory.compute interpretation node = .ok value) :
    memory.call interpretation node = .ok (memory.write node.id (.own node.id) value) := by
  rw [call, placement]
  exact Outcome.bind_eq_ok.mpr ⟨value, computed, rfl⟩

/-- A call whose arguments all have cells has a value. -/
theorem exists_compute {memory : Memory V} {node : Node}
    (placed : ∀ input ∈ node.inputs, ∃ cell, memory.place input = some cell) :
    ∃ value, memory.compute interpretation node = .ok value := by
  have bound : ∀ input ∈ node.toInstruction.data.inputs, Argument.Bound memory.look input := by
    intro input isInput
    obtain ⟨cell, found⟩ := placed input (Instruction.mem_inputs_of_mem_data isInput)
    exact ⟨_, look_eq_ok found⟩
  obtain ⟨operands, read⟩ := Instruction.exists_read bound
  exact ⟨_, Outcome.bind_eq_ok.mpr ⟨operands, read, rfl⟩⟩

@[simp]
theorem place_put_self (memory : Memory V) (id : NodeId) (cell : Cell) :
    (memory.put id cell).place id = some cell :=
  Function.update_self id _ _

theorem place_put_of_ne {id other : NodeId} (different : other ≠ id) (memory : Memory V)
    (cell : Cell) : (memory.put id cell).place other = memory.place other :=
  Function.update_of_ne different _ _

theorem evaluate_of_run {content : Cell → V} {nodes : List Node} {memory : Memory V}
    {outputs : Operands V} (ran : nodes.foldlM (exec interpretation) { content } = .ok memory)
    (results : memory.outputs = some outputs) :
    evaluate interpretation content nodes =
      .ok (outputs, fun index => memory.content (.outer index)) := by
  refine Outcome.bind_eq_ok.mpr ⟨memory, ran, ?_⟩
  rw [results]
  rfl

theorem run_split {before after : List Node} {node : Node} {start memory next final : Memory V}
    (ran : before.foldlM (exec interpretation) start = .ok memory)
    (stepped : memory.exec interpretation node = .ok next)
    (ranAfter : after.foldlM (exec interpretation) next = .ok final) :
    (before ++ node :: after).foldlM (exec interpretation) start = .ok final := by
  rw [List.foldlM_append]
  refine Outcome.bind_eq_ok.mpr ⟨memory, ran, ?_⟩
  exact Outcome.bind_eq_ok.mpr ⟨next, stepped, ranAfter⟩

/-! ### Agreement -/

/-- The relation that links two cells to each other and otherwise links what `link` does. -/
def relink (link : Cell → Cell → Prop) (cell other : Cell) (left right : Cell) : Prop :=
  (left = cell ∧ right = other) ∨ (left ≠ cell ∧ right ≠ other ∧ link left right)

/-- A one-to-one relation links the cells of the known nodes, and linked cells have equal
contents.  In the second memory the nodes may have other names. -/
structure Agrees (known : Set NodeId) (rename : NodeId → NodeId) (link : Cell → Cell → Prop)
    (left right : Memory V) : Prop where
  places : ∀ id ∈ known, ∃ cell other, left.place id = some cell ∧
    right.place (rename id) = some other ∧ link cell other
  contents : ∀ cell other, link cell other → left.content cell = right.content other
  unique : ∀ cell other cell' other', link cell other → link cell' other' →
    (cell = cell' ↔ other = other')
  leaves : left.leaves = right.leaves

namespace Agrees

variable {known known' : Set NodeId} {rename rename' : NodeId → NodeId}
variable {link : Cell → Cell → Prop} {left right : Memory V}

/-- A memory agrees with itself about nodes that have cells. -/
theorem refl {memory : Memory V} (placed : ∀ id ∈ known, ∃ cell, memory.place id = some cell) :
    Agrees known id Eq memory memory := by
  refine ⟨fun id isKnown => ?_, fun _ _ same => congrArg _ same, ?_, rfl⟩
  · obtain ⟨cell, found⟩ := placed id isKnown
    exact ⟨cell, cell, found, found, rfl⟩
  · rintro cell other cell' other' rfl rfl
    exact Iff.rfl

theorem mono (agrees : Agrees known rename link left right) (subset : known' ⊆ known)
    (same : ∀ id ∈ known', rename' id = rename id) : Agrees known' rename' link left right := by
  refine ⟨fun id isKnown => ?_, agrees.contents, agrees.unique, agrees.leaves⟩
  rw [same id isKnown]
  exact agrees.places id (subset isKnown)

theorem look (agrees : Agrees known rename link left right) {id : NodeId} (isKnown : id ∈ known) :
    left.look id = right.look (rename id) := by
  obtain ⟨cell, other, placed, placedOther, linked⟩ := agrees.places id isKnown
  rw [look_eq_ok placed, look_eq_ok placedOther, agrees.contents cell other linked]

theorem bound (agrees : Agrees known rename link left right) {id : NodeId} (isKnown : id ∈ known) :
    Argument.Bound left.look id := by
  obtain ⟨cell, _, placed, _, _⟩ := agrees.places id isKnown
  exact ⟨_, look_eq_ok placed⟩

/-- Instructions that differ in the names of known nodes read the same contents. -/
theorem read (agrees : Agrees known rename link left right) {instruction : Instruction}
    (image : NodeId → Arg) (inputs : ∀ input ∈ instruction.inputs, input ∈ known)
    (renamed : ∀ input ∈ instruction.inputs, image input = .ref (rename input)) :
    ∃ operands, instruction.read left.look = .ok operands ∧
      (instruction.bind image).read right.look = .ok operands := by
  obtain ⟨operands, success⟩ :=
    Instruction.exists_read fun input isInput => agrees.bound (inputs input isInput)
  refine ⟨operands, success, ?_⟩
  rw [Instruction.read_bind, ← success]
  refine Instruction.read_congr fun input isInput => ?_
  rw [renamed input isInput, agrees.look (inputs input isInput)]
  rfl

/-- Calls with the same meaning, of the same arguments under other names, have the same value. -/
theorem compute (agrees : Agrees known rename link left right) {node other : Node}
    (image : NodeId → Arg)
    (inputs : ∀ input ∈ node.inputs, input ∈ known)
    (renamed : ∀ input ∈ node.inputs, image input = .ref (rename input))
    (args : other.args = (node.toInstruction.data.bind image).args)
    (kwargs : other.toInstruction.dataKwargs = (node.toInstruction.data.bind image).kwargs)
    (meaning : interpretation.compute other.op = interpretation.compute node.op) :
    ∃ value, left.compute interpretation node = .ok value ∧
      right.compute interpretation other = .ok value := by
  obtain ⟨operands, success, successOther⟩ := agrees.read image
    (fun input isInput => inputs input (Instruction.mem_inputs_of_mem_data isInput))
    (fun input isInput => renamed input (Instruction.mem_inputs_of_mem_data isInput))
  refine ⟨interpretation.compute node.op operands, ?_, ?_⟩
  · exact Outcome.bind_eq_ok.mpr ⟨operands, success, rfl⟩
  · refine Outcome.bind_eq_ok.mpr ⟨operands, ?_, by rw [meaning]; rfl⟩
    rw [← successOther, Instruction.read, Instruction.read, ← args, ← kwargs]
    rfl

/-- Writing one value into two cells links them. -/
theorem write (agrees : Agrees known rename link left right) {id name : NodeId}
    {cell other : Cell} (value : V)
    (places : ∀ i ∈ known', ∃ c d, (left.put id cell).place i = some c ∧
      (right.put name other).place (rename' i) = some d ∧ relink link cell other c d) :
    Agrees known' rename' (relink link cell other) (left.write id cell value)
      (right.write name other value) := by
  refine ⟨places, ?_, ?_, agrees.leaves⟩
  · rintro c d (⟨rfl, rfl⟩ | ⟨different, differentOther, linked⟩)
    · simp [Memory.write]
    · simp only [Memory.write, Function.update_of_ne different,
        Function.update_of_ne differentOther]
      exact agrees.contents c d linked
  · rintro c d c' d' (⟨rfl, rfl⟩ | ⟨different, differentOther, linked⟩)
      (⟨rfl, rfl⟩ | ⟨different', differentOther', linked'⟩)
    · simp
    · simp [Ne.symm different', Ne.symm differentOther']
    · simp [different, differentOther]
    · exact agrees.unique c d c' d' linked linked'

/-- After a node has been placed in both memories, it is known and all else is where it was. -/
theorem places_put (agrees : Agrees known rename link left right) {id name : NodeId}
    (new : ∀ i ∈ known, i ≠ id ∧ rename i ≠ name) (cell other : Cell) :
    ∀ i ∈ insert id known, ∃ c d, (left.put id cell).place i = some c ∧
      (right.put name other).place (Function.update rename id name i) = some d ∧
        ((c = cell ∧ d = other) ∨
          (i ∈ known ∧ left.place i = some c ∧ right.place (rename i) = some d ∧ link c d)) := by
  intro i member
  by_cases same : i = id
  · subst same
    exact ⟨cell, other, by simp, by simp, Or.inl ⟨rfl, rfl⟩⟩
  · have isKnown : i ∈ known := member.resolve_left same
    obtain ⟨c, d, placed, placedOther, linked⟩ := agrees.places i isKnown
    refine ⟨c, d, ?_, ?_, Or.inr ⟨isKnown, placed, placedOther, linked⟩⟩
    · rw [place_put_of_ne same, placed]
    · rw [Function.update_of_ne same, place_put_of_ne (new i isKnown).2, placedOther]

/-- A node placed in linked cells becomes known. -/
theorem put (agrees : Agrees known rename link left right) {id name : NodeId}
    (new : ∀ i ∈ known, i ≠ id ∧ rename i ≠ name) {cell other : Cell} (linked : link cell other) :
    Agrees (insert id known) (Function.update rename id name) link (left.put id cell)
      (right.put name other) := by
  refine ⟨?_, agrees.contents, agrees.unique, agrees.leaves⟩
  intro i member
  obtain ⟨c, d, placed, placedOther, alternatives⟩ := agrees.places_put new cell other i member
  refine ⟨c, d, placed, placedOther, ?_⟩
  rcases alternatives with ⟨rfl, rfl⟩ | ⟨-, -, -, old⟩
  · exact linked
  · exact old

/-- A node written into linked cells becomes known. -/
theorem overwrite (agrees : Agrees known rename link left right) {id name : NodeId}
    (new : ∀ i ∈ known, i ≠ id ∧ rename i ≠ name) {cell other : Cell} (linked : link cell other)
    (value : V) :
    Agrees (insert id known) (Function.update rename id name) (relink link cell other)
      (left.write id cell value) (right.write name other value) := by
  refine agrees.write value fun i member => ?_
  obtain ⟨c, d, placed, placedOther, alternatives⟩ := agrees.places_put new cell other i member
  refine ⟨c, d, placed, placedOther, ?_⟩
  rcases alternatives with same | ⟨-, -, -, old⟩
  · exact Or.inl same
  · by_cases same : c = cell
    · exact Or.inl ⟨same, (agrees.unique c d cell other old linked).mp same⟩
    · have apart := fun equal => same ((agrees.unique c d cell other old linked).mpr equal)
      exact Or.inr ⟨same, apart, old⟩

/-- A node written into cells in which no known value lies becomes known. -/
theorem allocate (agrees : Agrees known rename link left right) {id name : NodeId}
    (new : ∀ i ∈ known, i ≠ id ∧ rename i ≠ name) {cell other : Cell}
    (unused : ∀ i ∈ known, left.place i ≠ some cell)
    (unusedOther : ∀ i ∈ known, right.place (rename i) ≠ some other) (value : V) :
    Agrees (insert id known) (Function.update rename id name) (relink link cell other)
      (left.write id cell value) (right.write name other value) := by
  refine agrees.write value fun i member => ?_
  obtain ⟨c, d, placed, placedOther, alternatives⟩ := agrees.places_put new cell other i member
  refine ⟨c, d, placed, placedOther, ?_⟩
  rcases alternatives with same | ⟨isKnown, oldPlaced, oldPlacedOther, old⟩
  · exact Or.inl same
  · refine Or.inr ⟨fun equal => ?_, fun equal => ?_, old⟩
    · exact unused i isKnown (equal ▸ oldPlaced)
    · exact unusedOther i isKnown (equal ▸ oldPlacedOther)

theorem relink_outer {cell other : Cell} (agrees : Agrees known rename link left right)
    (linked : link cell other) {index : Nat} (outer : link (.outer index) (.outer index)) :
    relink link cell other (.outer index) (.outer index) := by
  by_cases same : Cell.outer index = cell
  · exact Or.inl ⟨same, (agrees.unique _ _ _ _ outer linked).mp same⟩
  · refine Or.inr ⟨same, fun equal => same ?_, outer⟩
    exact (agrees.unique _ _ _ _ outer linked).mpr equal

/-- Calls of the same arguments under other names, which put their values into corresponding places,
keep memories in agreement. -/
theorem call (agrees : Agrees known rename link left right) {node other : Node}
    (computed : ∃ value, left.compute interpretation node = .ok value ∧
      right.compute interpretation other = .ok value)
    (placed : interpretation.place other = (interpretation.place node).map rename)
    (target : ∀ id, (interpretation.place node).target? = some id → id ∈ known)
    (new : ∀ i ∈ known, i ≠ node.id ∧ rename i ≠ other.id)
    (unused : ∀ i ∈ known, left.place i ≠ some (.own node.id))
    (unusedOther : ∀ i ∈ known, right.place (rename i) ≠ some (.own other.id)) :
    ∃ l r link', left.call interpretation node = .ok l ∧
      right.call interpretation other = .ok r ∧
        Agrees (insert node.id known) (Function.update rename node.id other.id) link' l r ∧
          ∀ index, link (.outer index) (.outer index) → link' (.outer index) (.outer index) := by
  obtain ⟨value, success, successOther⟩ := computed
  cases placement : interpretation.place node with
  | view base =>
      rw [placement] at placed target
      obtain ⟨cell, otherCell, found, foundOther, linked⟩ := agrees.places base (target base rfl)
      exact ⟨_, _, link, call_view placement found, call_view placed foundOther,
        agrees.put new linked, fun _ outer => outer⟩
  | into base =>
      rw [placement] at placed target
      obtain ⟨cell, otherCell, found, foundOther, linked⟩ := agrees.places base (target base rfl)
      exact ⟨_, _, _, call_into placement success found, call_into placed successOther foundOther,
        agrees.overwrite new linked value, fun _ outer => agrees.relink_outer linked outer⟩
  | fresh =>
      rw [placement] at placed
      refine ⟨_, _, _, call_fresh placement success, call_fresh placed successOther,
        agrees.allocate new unused unusedOther value, ?_⟩
      exact fun index outer => Or.inr ⟨Cell.noConfusion, Cell.noConfusion, outer⟩

/-- The next input or attribute denotes the same outer cell in both memories. -/
theorem enter (agrees : Agrees known rename link left right) {id name : NodeId}
    (new : ∀ i ∈ known, i ≠ id ∧ rename i ≠ name) {index : Nat}
    (outer : link (.outer index) (.outer index)) :
    Agrees (insert id known) (Function.update rename id name) link
      { left.put id (.outer index) with leaves := left.leaves + 1 }
      { right.put name (.outer index) with leaves := right.leaves + 1 } := by
  have placed := agrees.put new outer
  exact ⟨placed.places, placed.contents, placed.unique, congrArg (· + 1) agrees.leaves⟩

end Agrees

/-- Only nodes among `done` have cells of their own. -/
def Owned (done : Set NodeId) (memory : Memory V) : Prop :=
  ∀ id node, memory.place id = some (.own node) → node ∈ done

theorem owned_start (content : Cell → V) : Owned ∅ { content } :=
  fun _ _ placed => by cases placed

theorem Owned.put {done : Set NodeId} {memory : Memory V} (owned : memory.Owned done) {id : NodeId}
    {cell : Cell} (inside : ∀ node, cell = .own node → node ∈ insert id done) :
    (memory.put id cell).Owned (insert id done) := by
  intro other node placed
  by_cases same : other = id
  · subst same
    rw [place_put_self] at placed
    exact inside node (Option.some.inj placed)
  · rw [place_put_of_ne same] at placed
    exact Set.mem_insert_of_mem _ (owned other node placed)

theorem Owned.exec {done : Set NodeId} {memory next : Memory V} {node : Node}
    (owned : memory.Owned done) (success : memory.exec interpretation node = .ok next) :
    next.Owned (insert node.id done) := by
  have found : ∀ {target cell}, memory.find target = .ok cell →
      ∀ other, cell = .own other → other ∈ insert node.id done := by
    rintro target cell found other rfl
    exact Set.mem_insert_of_mem _ (owned target other (find_eq_ok_iff.mp found))
  by_cases isOutput : node.op = .output
  · rw [Memory.exec, isOutput] at success
    obtain ⟨outputs, _, same⟩ := Outcome.bind_eq_ok.mp success
    obtain rfl := Except.ok.inj same
    exact fun other owner placed => Set.mem_insert_of_mem _ (owned other owner placed)
  · cases isCall : node.op.isCall with
    | false =>
        rw [exec_leaf isCall isOutput] at success
        obtain rfl := Except.ok.inj success
        exact owned.put fun _ equal => by cases equal
    | true =>
        rw [exec_call isCall, Memory.call] at success
        split at success
        · obtain ⟨cell, finding, same⟩ := Outcome.bind_eq_ok.mp success
          obtain rfl := Except.ok.inj same
          exact owned.put (found finding)
        · obtain ⟨value, _, rest⟩ := Outcome.bind_eq_ok.mp success
          obtain ⟨cell, finding, same⟩ := Outcome.bind_eq_ok.mp rest
          obtain rfl := Except.ok.inj same
          exact owned.put (found finding)
        · obtain ⟨value, _, same⟩ := Outcome.bind_eq_ok.mp success
          obtain rfl := Except.ok.inj same
          refine owned.put fun other equal => ?_
          obtain rfl := Cell.own.inj equal
          exact Set.mem_insert _ _

end Memory

end OpGraph
