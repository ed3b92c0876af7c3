import Mathlib.Data.List.Forall2
import OpGraph.Graph.Similarity
import OpGraph.Proofs.Arena
import OpGraph.Proofs.Renumbering
import OpGraph.Proofs.Validity

/-!
# Equality up to identity

The comparison of graphs reads references as places and compares doubles as numbers.  Its laws come
from one relation on arguments: two arguments match if they have the same form, literals that agree
and related references (`Argument.Matches`).  Graphs are similar if their nodes match place by
place, with references related when they lead to the same place (`Graph.similar_iff`).

A not-a-number literal agrees with nothing, so similarity is a partial equivalence, and exactly the
graphs without such literals are similar to themselves.  Between valid graphs it is a renumbering
that matches all nodes (`Graph.similar_iff_matchedBy`).
-/

namespace OpGraph

theorem forall₂_trans {α β γ : Type} {first : α → β → Prop} {second : β → γ → Prop}
    {both : α → γ → Prop} {lefts : List α} {middles : List β} {rights : List γ}
    (compose : ∀ {left middle right}, first left middle → second middle right → both left right)
    (early : List.Forall₂ first lefts middles) (late : List.Forall₂ second middles rights) :
    List.Forall₂ both lefts rights := by
  induction early generalizing rights with
  | nil =>
      cases late with
      | nil => exact .nil
  | cons here _ ih =>
      cases late with
      | cons there later => exact .cons (compose here there) (ih later)

/-! ### Literals -/

namespace Binary64

theorem sameNumber_comm (left right : Binary64) :
    left.sameNumber right = right.sameNumber left := by
  simp only [sameNumber, Bool.and_comm, BEq.comm (a := left.bits)]

theorem sameNumber_trans {first second third : Binary64} (early : first.sameNumber second = true)
    (late : second.sameNumber third = true) : first.sameNumber third = true := by
  obtain ⟨a⟩ := first
  obtain ⟨b⟩ := second
  obtain ⟨c⟩ := third
  simp only [sameNumber, Bool.and_eq_true, Bool.or_eq_true, beq_iff_eq] at early late ⊢
  obtain ⟨⟨noFirst, -⟩, rfl | zeros⟩ := early
  · exact late
  · refine ⟨⟨noFirst, late.1.2⟩, Or.inr ⟨zeros.1, ?_⟩⟩
    rcases late.2 with rfl | ⟨-, zero⟩
    · exact zeros.2
    · exact zero

theorem sameNumber_self (number : Binary64) : number.sameNumber number = !number.isNaN := by
  simp [sameNumber]

end Binary64

namespace Literal

/-- The literal is a double that is not a number. -/
def isNaN : Literal → Bool
  | float value => value.isNaN
  | _ => false

theorem agrees_comm (left right : Literal) : left.agrees right = right.agrees left := by
  cases left <;> cases right <;> simp [agrees, Binary64.sameNumber_comm, BEq.comm]

theorem agrees_trans {first second third : Literal} (early : first.agrees second = true)
    (late : second.agrees third = true) : first.agrees third = true := by
  cases first <;> cases second <;> simp [agrees] at early <;> cases third <;>
    simp_all [agrees]
  exact Binary64.sameNumber_trans early late

theorem agrees_self (literal : Literal) : literal.agrees literal = !literal.isNaN := by
  cases literal <;> simp [agrees, isNaN, Binary64.sameNumber_self]

end Literal

/-! ### Arguments -/

namespace Argument

variable {ρ σ τ : Type}

/-- The arguments have the same form, literals that agree and related references. -/
inductive Matches (related : ρ → σ → Prop) : Argument ρ → Argument σ → Prop where
  | ref {source : ρ} {target : σ} (here : related source target) :
      Matches related (ref source) (ref target)
  | literal {left right : Literal} (agree : left.agrees right = true) :
      Matches related (literal left) (literal right)
  | tuple {items : List (Argument ρ)} {others : List (Argument σ)}
      (each : List.Forall₂ (Matches related) items others) :
      Matches related (tuple items) (tuple others)

namespace Matches

variable {related : ρ → σ → Prop} {left : Argument ρ} {right : Argument σ}

/-- Induction on matching arguments, with a hypothesis for every pair of items of two tuples. -/
@[elab_as_elim]
theorem induction {motive : Argument ρ → Argument σ → Prop}
    (ref : ∀ source target, related source target → motive (.ref source) (.ref target))
    (literal : ∀ value other, value.agrees other = true → motive (.literal value) (.literal other))
    (tuple : ∀ items others, List.Forall₂ motive items others →
      motive (.tuple items) (.tuple others))
    (same : Matches related left right) : motive left right := by
  induction left generalizing right with
  | ref source =>
      cases same with
      | ref here => exact ref _ _ here
  | literal value =>
      cases same with
      | literal agree => exact literal _ _ agree
  | tuple items ih =>
      cases same with
      | tuple each =>
          apply tuple
          exact ((List.forall₂_and_left _ _).mpr ⟨fun item member => @ih item member, each⟩).imp
            fun _ _ both => both.1 both.2

/-- The references of matching arguments are related one by one. -/
theorem refs (same : Matches related left right) :
    List.Forall₂ related left.refs right.refs := by
  refine Matches.induction ?ref ?literal ?tuple same
  case ref => exact fun source target here => .cons here .nil
  case literal => exact fun value other agree => .nil
  case tuple =>
    intro items others each
    simp only [Argument.refs, refsAll_eq_flatMap]
    induction each with
    | nil => exact .nil
    | cons here _ later => exact List.rel_append here later

theorem symm (same : Matches related left right) :
    Matches (fun target source => related source target) right left := by
  refine Matches.induction ?ref ?literal ?tuple same
  case ref => exact fun source target here => .ref here
  case literal => exact fun value other agree => .literal (by rw [Literal.agrees_comm, agree])
  case tuple => exact fun items others each => .tuple (List.Forall₂.flip each)

/-- Whether arguments match depends on the relation between their references only. -/
theorem imp {coarser : ρ → σ → Prop} (same : Matches related left right)
    (weaken : ∀ source ∈ left.refs, ∀ target, related source target → coarser source target) :
    Matches coarser left right := by
  revert weaken
  refine Matches.induction ?ref ?literal ?tuple same
  case ref =>
    exact fun source target here weaken => .ref (weaken source (List.mem_singleton_self _) _ here)
  case literal => exact fun value other agree _ => .literal agree
  case tuple =>
    intro items others each weaken
    refine .tuple (((List.forall₂_and_left _ _).mpr ⟨?_, each⟩).imp fun _ _ both => both.2 both.1)
    intro item member source isRef
    exact weaken source (mem_refsAll.mpr ⟨item, member, isRef⟩)

theorem trans {further : σ → τ → Prop} {composed : ρ → τ → Prop} {last : Argument τ}
    (early : Matches related left right) (late : Matches further right last)
    (compose : ∀ first second third, related first second → further second third →
      composed first third) : Matches composed left last := by
  suffices onward : ∀ last, Matches further right last → Matches composed left last from
    onward last late
  refine Matches.induction ?ref ?literal ?tuple early
  case ref =>
    intro source target here last late
    cases late with
    | ref there => exact .ref (compose _ _ _ here there)
  case literal =>
    intro value other agree last late
    cases late with
    | literal next => exact .literal (Literal.agrees_trans agree next)
  case tuple =>
    intro items others each last late
    cases late with
    | tuple next =>
        exact .tuple (forall₂_trans (fun onward there => onward _ there) each next)

end Matches

theorem agreeAll_iff [DecidableEq ρ] {lefts rights : List (Argument ρ)} :
    agreeAll lefts rights = true ↔
      List.Forall₂ (fun left right => left.agrees right = true) lefts rights := by
  induction lefts generalizing rights with
  | nil => cases rights <;> simp [agreeAll]
  | cons left lefts ih => cases rights <;> simp [agreeAll, ih]

/-- Arguments agree once their references have been read as places if they match with respect to
being at the same place. -/
theorem agrees_bind_iff [DecidableEq τ] {placeLeft : ρ → τ} {placeRight : σ → τ}
    {left : Argument ρ} {right : Argument σ} :
    (left.bind fun target => ref (placeLeft target)).agrees
        (right.bind fun target => ref (placeRight target)) = true ↔
      Matches (fun source target => placeLeft source = placeRight target) left right := by
  constructor
  · intro agree
    induction left generalizing right with
    | ref source =>
        cases right with
        | ref target => exact .ref (beq_iff_eq.mp agree)
        | literal | tuple => cases agree
    | literal value =>
        cases right with
        | literal other => exact .literal agree
        | ref | tuple => cases agree
    | tuple items ih =>
        cases right with
        | tuple others =>
            simp only [bind, agrees, agreeAll_iff, bindAll_eq_map, List.forall₂_map_left_iff,
              List.forall₂_map_right_iff] at agree
            refine .tuple (((List.forall₂_and_left _ _).mpr
              ⟨fun item member => @ih item member, agree⟩).imp ?_)
            exact fun _ _ both => both.1 both.2
        | ref | literal => cases agree
  · intro same
    refine Matches.induction ?ref ?literal ?tuple same
    case ref => exact fun source target here => beq_iff_eq.mpr here
    case literal => exact fun value other agree => agree
    case tuple =>
      intro items others each
      simpa only [bind, agrees, agreeAll_iff, bindAll_eq_map, List.forall₂_map_left_iff,
        List.forall₂_map_right_iff] using each

mutual

/-- The literals of an argument from left to right. -/
def literals : Argument ρ → List Literal
  | ref _ => []
  | literal value => [value]
  | tuple items => literalsAll items

/-- The literals of several arguments from left to right. -/
def literalsAll : List (Argument ρ) → List Literal
  | [] => []
  | item :: rest => item.literals ++ literalsAll rest

end

theorem mem_literalsAll {items : List (Argument ρ)} {value : Literal} :
    value ∈ literalsAll items ↔ ∃ item ∈ items, value ∈ item.literals := by
  induction items with
  | nil => simp [literalsAll]
  | cons item rest ih => simp [literalsAll, ih]

/-- An argument matches its image under a renaming if all of its references are related to their
images and it holds no not-a-number literal. -/
theorem matches_bind_ref_iff {related : ρ → σ → Prop} {rename : ρ → σ} {argument : Argument ρ} :
    Matches related argument (argument.bind fun target => ref (rename target)) ↔
      (∀ target ∈ argument.refs, related target (rename target)) ∧
        ∀ value ∈ argument.literals, value.isNaN = false := by
  induction argument with
  | ref target =>
      simp only [refs, literals, bind, List.mem_singleton, forall_eq, List.not_mem_nil,
        false_imp_iff, implies_true, and_true]
      constructor
      · intro same
        cases same with
        | ref here => exact here
      · exact .ref
  | literal value =>
      simp only [refs, literals, bind, List.mem_singleton, forall_eq, List.not_mem_nil,
        false_imp_iff, implies_true, true_and]
      rw [← Bool.not_eq_true', ← Literal.agrees_self]
      constructor
      · intro same
        cases same with
        | literal agree => exact agree
      · exact .literal
  | tuple items ih =>
      have each : Matches related (tuple items) ((tuple items).bind fun target =>
          ref (rename target)) ↔ ∀ item ∈ items,
            Matches related item (item.bind fun target => ref (rename target)) := by
        rw [bind, bindAll_eq_map]
        constructor
        · intro same
          cases same with
          | tuple each => exact List.forall₂_same.mp (List.forall₂_map_right_iff.mp each)
        · exact fun each => .tuple (List.forall₂_map_right_iff.mpr (List.forall₂_same.mpr each))
      rw [each]
      constructor
      · intro all
        constructor
        · intro target isRef
          obtain ⟨item, member, inItem⟩ := mem_refsAll.mp isRef
          exact ((ih item member).mp (all item member)).1 target inItem
        · intro value isLiteral
          obtain ⟨item, member, inItem⟩ := mem_literalsAll.mp isLiteral
          exact ((ih item member).mp (all item member)).2 value inItem
      · rintro ⟨related, numbers⟩ item member
        refine (ih item member).mpr ⟨fun target isRef => ?_, fun value isLiteral => ?_⟩
        · exact related target (mem_refsAll.mpr ⟨item, member, isRef⟩)
        · exact numbers value (mem_literalsAll.mpr ⟨item, member, isLiteral⟩)

end Argument

/-! ### Instructions -/

namespace Kwargs

variable {ρ σ : Type}

theorem keys_bind (image : ρ → Argument σ) (kwargs : Kwargs ρ) :
    (kwargs.bind image).keys = kwargs.keys := by
  rw [bind, ← Std.ExtTreeMap.map_fst_toList_eq_keys, ← Std.ExtTreeMap.map_fst_toList_eq_keys,
    Std.ExtTreeMap.toList_map, List.map_map]
  rfl

theorem refs_eq_refsAll (kwargs : Kwargs ρ) : kwargs.refs = Argument.refsAll kwargs.values := by
  rw [refs, values_eq_map_snd, Argument.refsAll_eq_flatMap, List.flatMap_map]

end Kwargs

namespace Instruction

/-- The literals among the arguments, positional ones first. -/
def literals (instruction : Instruction) : List Literal :=
  Argument.literalsAll instruction.args ++ Argument.literalsAll instruction.kwargs.values

/-- The instructions have the same operation, record and keywords, and arguments that match. -/
structure Matches (related : NodeId → NodeId → Prop) (left right : Instruction) : Prop where
  op : left.op = right.op
  info : left.info = right.info
  args : Argument.Matches related (.tuple left.args) (.tuple right.args)
  keywords : left.kwargs.keys = right.kwargs.keys
  values : Argument.Matches related (.tuple left.kwargs.values) (.tuple right.kwargs.values)

namespace Matches

variable {related : NodeId → NodeId → Prop} {left right : Instruction}

/-- Matching instructions read related nodes, one by one. -/
theorem inputs (same : left.Matches related right) :
    List.Forall₂ related left.inputs right.inputs := by
  rw [Instruction.inputs, Instruction.inputs, Kwargs.refs_eq_refsAll, Kwargs.refs_eq_refsAll]
  exact List.rel_append same.args.refs same.values.refs

theorem map_inputs {τ : Type} {imageLeft imageRight : NodeId → τ}
    (same : left.Matches (fun source target => imageLeft source = imageRight target) right) :
    left.inputs.map imageLeft = right.inputs.map imageRight := by
  rw [← List.forall₂_eq_eq_eq, List.forall₂_map_left_iff, List.forall₂_map_right_iff]
  exact same.inputs

theorem symm (same : left.Matches related right) :
    right.Matches (fun target source => related source target) left where
  op := same.op.symm
  info := same.info.symm
  args := same.args.symm
  keywords := same.keywords.symm
  values := same.values.symm

theorem imp {coarser : NodeId → NodeId → Prop} (same : left.Matches related right)
    (weaken : ∀ source ∈ left.inputs, ∀ target, related source target → coarser source target) :
    left.Matches coarser right where
  op := same.op
  info := same.info
  args := same.args.imp fun source isRef => weaken source (mem_inputs.mpr (Or.inl isRef))
  keywords := same.keywords
  values := same.values.imp fun source isRef =>
    weaken source (mem_inputs.mpr (Or.inr (Kwargs.refs_eq_refsAll _ ▸ isRef)))

theorem trans {further composed : NodeId → NodeId → Prop} {last : Instruction}
    (early : left.Matches related right) (late : right.Matches further last)
    (compose : ∀ first second third, related first second → further second third →
      composed first third) : left.Matches composed last where
  op := early.op.trans late.op
  info := early.info.trans late.info
  args := early.args.trans late.args compose
  keywords := early.keywords.trans late.keywords
  values := early.values.trans late.values compose

end Matches

theorem agreesAt_iff {left right : Instruction} {placeLeft placeRight : NodeId → Option Nat} :
    left.agreesAt right placeLeft placeRight = true ↔
      left.Matches (fun source target => placeLeft source = placeRight target) right := by
  simp only [agreesAt, Kwargs.agrees, Bool.and_eq_true, decide_eq_true_eq, beq_iff_eq,
    Kwargs.keys_bind, Kwargs.values_bind, ← Argument.bindAll_eq_map]
  constructor
  · rintro ⟨⟨⟨op, info⟩, args⟩, keywords, values⟩
    exact ⟨op, info, Argument.agrees_bind_iff.mp args, keywords, Argument.agrees_bind_iff.mp values⟩
  · rintro ⟨op, info, args, keywords, values⟩
    exact ⟨⟨⟨op, info⟩, Argument.agrees_bind_iff.mpr args⟩, keywords,
      Argument.agrees_bind_iff.mpr values⟩

/-- An instruction matches its image under a renaming if the nodes that it reads are related to
their images and it holds no not-a-number literal. -/
theorem matches_bind_ref_iff {related : NodeId → NodeId → Prop} {rename : NodeId → NodeId}
    {instruction : Instruction} :
    instruction.Matches related (instruction.bind fun target => .ref (rename target)) ↔
      (∀ target ∈ instruction.inputs, related target (rename target)) ∧
        ∀ value ∈ instruction.literals, value.isNaN = false := by
  have args := @Argument.matches_bind_ref_iff _ _ related rename (.tuple instruction.args)
  have values := @Argument.matches_bind_ref_iff _ _ related rename
    (.tuple instruction.kwargs.values)
  simp only [Argument.refs, Argument.literals, Argument.bind] at args values
  simp only [inputs, literals, List.forall_mem_append, Kwargs.refs_eq_refsAll]
  constructor
  · rintro ⟨-, -, sameArgs, -, sameValues⟩
    rw [bind, Kwargs.values_bind, ← Argument.bindAll_eq_map] at sameValues
    obtain ⟨argRefs, argNumbers⟩ := args.mp sameArgs
    obtain ⟨valueRefs, valueNumbers⟩ := values.mp sameValues
    exact ⟨⟨argRefs, valueRefs⟩, argNumbers, valueNumbers⟩
  · rintro ⟨⟨argRefs, valueRefs⟩, argNumbers, valueNumbers⟩
    refine ⟨rfl, rfl, args.mpr ⟨argRefs, argNumbers⟩, (Kwargs.keys_bind _ _).symm, ?_⟩
    rw [bind, Kwargs.values_bind, ← Argument.bindAll_eq_map]
    exact values.mpr ⟨valueRefs, valueNumbers⟩

theorem matches_self_iff {related : NodeId → NodeId → Prop} {instruction : Instruction} :
    instruction.Matches related instruction ↔
      (∀ target ∈ instruction.inputs, related target target) ∧
        ∀ value ∈ instruction.literals, value.isNaN = false := by
  have renamed := @matches_bind_ref_iff related id instruction
  rwa [show (fun target => Argument.ref (id target)) = Argument.ref from rfl,
    bind_ref] at renamed

end Instruction

/-! ### Graphs -/

namespace Graph

/-- Two references lead to the same place of two graphs, or both to none. -/
def SamePlace (left right : Graph) (source target : NodeId) : Prop :=
  left.position? source = right.position? target

/-- No argument of the graph holds a not-a-number literal. -/
def FreeOfNaN (graph : Graph) : Prop :=
  ∀ node ∈ graph.nodes, ∀ value ∈ node.literals, value.isNaN = false

instance (graph : Graph) : Decidable graph.FreeOfNaN :=
  inferInstanceAs (Decidable (∀ node ∈ graph.nodes, ∀ value ∈ node.literals, value.isNaN = false))

variable {graph left right : Graph}

/-- Graphs are similar if their nodes match place by place. -/
theorem similar_iff :
    left.similar right = true ↔
      List.Forall₂ (fun node other =>
        node.toInstruction.Matches (left.SamePlace right) other.toInstruction)
        left.nodes right.nodes := by
  rw [similar, Bool.and_eq_true, beq_iff_eq, List.all_eq_true, List.forall₂_iff_zip]
  refine and_congr_right fun _ => ⟨fun agree node other member => ?_, fun agree pair member => ?_⟩
  · exact Instruction.agreesAt_iff.mp (agree (node, other) member)
  · exact Instruction.agreesAt_iff.mpr (agree member)

theorem similar_symm (same : left.similar right = true) : right.similar left = true := by
  rw [similar_iff] at same ⊢
  exact (List.Forall₂.flip same).imp fun other node here => here.symm.imp fun _ _ _ => Eq.symm

theorem similar_trans {last : Graph} (early : left.similar right = true)
    (late : right.similar last = true) : left.similar last = true := by
  rw [similar_iff] at early late ⊢
  refine forall₂_trans (fun here there => ?_) early late
  exact here.trans there fun _ _ _ first second => Eq.trans first second

/-- A graph is similar to itself if it is free of not-a-number literals. -/
theorem similar_self_iff : graph.similar graph = true ↔ graph.FreeOfNaN := by
  rw [similar_iff, List.forall₂_same]
  refine forall₂_congr fun node _ => Instruction.matches_self_iff.trans ?_
  exact and_iff_right fun target _ => rfl

/-! ### Places -/

/-- The nodes of a first part of a graph are those with a place in it. -/
theorem mem_map_id_iff_position? {before after : List Node} (split : graph.nodes = before ++ after)
    {id : NodeId} :
    id ∈ before.map Node.id ↔ ∃ place < before.length, graph.position? id = some place := by
  rw [position?, split, List.findIdx?_append]
  cases found : before.findIdx? fun node => node.id = id with
  | none =>
      have absent : id ∉ before.map Node.id := by
        simpa using List.findIdx?_eq_none_iff.mp found
      simp only [absent, Option.none_or, Option.map_eq_some_iff, false_iff]
      rintro ⟨place, inside, other, -, rfl⟩
      omega
  | some place =>
      obtain ⟨inRange, same, -⟩ := List.findIdx?_eq_some_iff_getElem.mp found
      have present : id ∈ before.map Node.id :=
        List.mem_map.mpr ⟨_, List.getElem_mem inRange, of_decide_eq_true same⟩
      exact iff_of_true present ⟨place, inRange, rfl⟩

theorem insert_ids_eq_append (nodes : List Node) (next : Node) :
    insert next.id {id | id ∈ nodes.map Node.id} = {id | id ∈ (nodes ++ [next]).map Node.id} := by
  ext id
  simp [or_comm]

/-- What matching nodes read stands before them in both graphs or in none. -/
theorem closed_of_matches {before others after rest : List Node}
    (split : left.nodes = before ++ after) (splitOther : right.nodes = others ++ rest)
    (sameLength : before.length = others.length)
    (same : List.Forall₂ (fun node other =>
      node.toInstruction.Matches (left.SamePlace right) other.toInstruction) after rest)
    (closed : Closed {id | id ∈ before.map Node.id} after) :
    Closed {id | id ∈ others.map Node.id} rest := by
  induction same generalizing before others with
  | nil => trivial
  | @cons node other after rest here _ ih =>
      refine ⟨fun target isInput => ?_, ?_⟩
      · have placed : right.position? target ∈ node.inputs.map left.position? := by
          rw [here.map_inputs]
          exact List.mem_map_of_mem isInput
        obtain ⟨source, isSource, samePlace⟩ := List.mem_map.mp placed
        obtain ⟨place, inside, found⟩ :=
          (mem_map_id_iff_position? split).mp (closed.1 source isSource)
        refine (mem_map_id_iff_position? splitOther).mpr ⟨place, sameLength ▸ inside, ?_⟩
        rw [← samePlace, found]
      · rw [insert_ids_eq_append]
        refine ih (by rw [split, List.append_cons]) (by rw [splitOther, List.append_cons])
          (by simp [sameLength]) ?_
        rw [← insert_ids_eq_append]
        exact closed.2

/-- Whether nodes are arranged depends on their operations only. -/
theorem arranged_of_ops {past : Bool} {nodes others : List Node}
    (same : List.Forall₂ (fun node other => node.op = other.op) nodes others)
    (arranged : Arranged past nodes) : Arranged past others := by
  induction same generalizing past with
  | nil => exact arranged
  | @cons node other nodes others here later ih =>
      rcases node.op.cases_isInner with isInput | isOutput | inner
      · rw [arranged_cons_input isInput] at arranged
        rw [arranged_cons_input (here ▸ isInput)]
        exact ⟨arranged.1, ih arranged.2⟩
      · rw [arranged_cons_output isOutput] at arranged
        rw [arranged_cons_output (here ▸ isOutput)]
        rw [arranged] at later
        exact List.forall₂_nil_left_iff.mp later
      · rw [arranged_cons_inner inner] at arranged
        rw [arranged_cons_inner (here ▸ inner)]
        exact ih arranged

/-- A graph that is similar to a valid one is valid. -/
theorem validate_of_similar (same : left.similar right = true) (valid : left.validate = .ok ()) :
    right.validate = .ok () := by
  rw [similar_iff] at same
  obtain ⟨closed, arranged⟩ := validate_eq_ok_iff.mp valid
  refine validate_eq_ok_iff.mpr ⟨?_, arranged_of_ops (same.imp fun _ _ here => here.op) arranged⟩
  have nothing : {id | id ∈ ([] : List Node).map Node.id} = (∅ : Set NodeId) := by simp
  rw [← nothing] at closed ⊢
  exact closed_of_matches rfl rfl rfl same closed

end Graph

/-! ### The correspondence of nodes -/

/-- The second node is the first under another identity, up to its name and up to the spelling of
the doubles among its literals. -/
structure Node.MatchedBy (number : NodeId → NodeId) (left right : Node) : Prop where
  id : right.id = number left.id
  instruction : left.toInstruction.Matches (fun source target => number source = target)
    right.toInstruction

theorem Node.MatchedBy.map_id {number : NodeId → NodeId} {lefts rights : List Node}
    (nodes : List.Forall₂ (MatchedBy number) lefts rights) :
    rights.map Node.id = (lefts.map Node.id).map number := by
  induction nodes with
  | nil => rfl
  | cons here _ ih => rw [List.map_cons, List.map_cons, List.map_cons, here.id, ih]

namespace Graph

variable {left right : Graph} {number : NodeId → NodeId}

theorem position?_eq_findIdx?_ids (graph : Graph) (id : NodeId) :
    graph.position? id = graph.ids.findIdx? fun other => other = id := by
  rw [ids, List.findIdx?_map]
  rfl

/-- Corresponding nodes have the same place. -/
theorem position?_of_map_ids (ids : right.ids = left.ids.map number)
    (injective : Set.InjOn number {id | id ∈ left.ids}) {id : NodeId} (live : id ∈ left.ids) :
    right.position? (number id) = left.position? id := by
  rw [position?_eq_findIdx?_ids, position?_eq_findIdx?_ids, ids, List.findIdx?_map]
  -- The search on the right looks for equal numbers, which are equal identities here.
  have same : ∀ other ∈ left.ids, (number other = number id ↔ other = id) := fun other member =>
    ⟨fun equal => injective member live equal, fun equal => equal ▸ rfl⟩
  clear ids injective live
  generalize left.ids = known at same
  induction known with
  | nil => rfl
  | cons first rest ih =>
      have here := same first List.mem_cons_self
      have later := ih fun other member => same other (List.mem_cons_of_mem _ member)
      rw [List.findIdx?_cons, List.findIdx?_cons, later]
      simp only [Function.comp_apply, here]

/-- Graphs with corresponding nodes are similar, if nothing else is read. -/
theorem similar_of_matchedBy (closed : Closed ∅ left.nodes)
    (injective : Set.InjOn number {id | id ∈ left.ids})
    (nodes : List.Forall₂ (Node.MatchedBy number) left.nodes right.nodes) :
    left.similar right = true := by
  have ids : right.ids = left.ids.map number := Node.MatchedBy.map_id nodes
  rw [similar_iff]
  refine ((List.forall₂_and_left _ _).mpr ⟨fun node member => member, nodes⟩).imp ?_
  rintro node other ⟨member, same⟩
  refine same.instruction.imp fun source isInput target renamed => ?_
  subst renamed
  exact (position?_of_map_ids ids injective (closed.mem_ids member isInput)).symm

/-- A renumbering of a graph without not-a-number literals matches all nodes. -/
theorem Renumbered.matchedBy (free : left.FreeOfNaN)
    (nodes : List.Forall₂ (Node.RenumberedBy number) left.nodes right.nodes) :
    List.Forall₂ (Node.MatchedBy number) left.nodes right.nodes := by
  refine ((List.forall₂_and_left _ _).mpr ⟨free, nodes⟩).imp ?_
  rintro node other ⟨numbers, renumbered⟩
  refine ⟨renumbered.id, ?_⟩
  rw [renumbered.instruction]
  exact Instruction.matches_bind_ref_iff.mpr ⟨fun _ _ => rfl, numbers⟩

/-- The identity at the place that a node has in the other graph. -/
def counterpart (left right : Graph) (id : NodeId) : NodeId :=
  ((left.position? id).bind right.idAt?).getD id

theorem exists_position? {graph : Graph} {id : NodeId} (live : id ∈ graph.ids) :
    ∃ place, graph.position? id = some place := by
  rw [← Option.isSome_iff_exists, isSome_position?]
  exact contains_eq_true_iff.mpr live

theorem lt_size_of_position? {graph : Graph} {id : NodeId} {place : Nat}
    (found : graph.position? id = some place) : place < graph.size :=
  (List.findIdx?_eq_some_iff_getElem.mp found).1

theorem counterpart_of_samePlace {source target : NodeId} (live : source ∈ left.ids)
    (samePlace : left.SamePlace right source target) : left.counterpart right source = target := by
  obtain ⟨place, found⟩ := exists_position? live
  have there : right.idAt? place = some target := idAt?_position? (samePlace ▸ found)
  rw [counterpart, found, Option.bind_some, there, Option.getD_some]

/-- In a graph without repeated identities, the node at a place has that place. -/
theorem position?_of_idAt? {graph : Graph} (distinct : graph.ids.Nodup) {place : Nat} {id : NodeId}
    (found : graph.idAt? place = some id) : graph.position? id = some place := by
  obtain ⟨node, there, rfl⟩ := Option.map_eq_some_iff.mp found
  obtain ⟨before, after, split, rfl⟩ := exists_split_of_getElem? there
  rw [ids, split, List.map_append, List.map_cons] at distinct
  have absent : node.id ∉ before.map Node.id := fun earlier =>
    (List.nodup_append.mp distinct).2.2 _ earlier _ List.mem_cons_self rfl
  have none : (before.findIdx? fun other => other.id = node.id) = none := by
    simpa [List.findIdx?_eq_none_iff] using absent
  rw [position?, split, List.findIdx?_append, none, List.findIdx?_cons]
  simp

theorem idAt?_of_position? {id : NodeId} {place : Nat} (sizes : left.size = right.size)
    (found : left.position? id = some place) :
    right.idAt? place = some (left.counterpart right id) := by
  have inRange : place < right.nodes.length :=
    Nat.lt_of_lt_of_eq (lt_size_of_position? found) sizes
  rw [counterpart, found, Option.bind_some, idAt?, List.getElem?_eq_getElem inRange]
  rfl

theorem injOn_counterpart (distinct : right.ids.Nodup) (sizes : left.size = right.size) :
    Set.InjOn (left.counterpart right) {id | id ∈ left.ids} := by
  intro first isFirst second isSecond equal
  obtain ⟨placeFirst, foundFirst⟩ := exists_position? isFirst
  obtain ⟨placeSecond, foundSecond⟩ := exists_position? isSecond
  have thereFirst := position?_of_idAt? distinct (idAt?_of_position? sizes foundFirst)
  have thereSecond := position?_of_idAt? distinct (idAt?_of_position? sizes foundSecond)
  rw [equal, thereSecond] at thereFirst
  obtain rfl := Option.some.inj thereFirst
  exact Option.some.inj ((idAt?_position? foundFirst).symm.trans (idAt?_position? foundSecond))

/-- The nodes of similar graphs correspond by their places, if nothing else is read. -/
theorem matchedBy_of_similar (distinct : left.ids.Nodup) (closed : Closed ∅ left.nodes)
    (same : left.similar right = true) :
    List.Forall₂ (Node.MatchedBy (left.counterpart right)) left.nodes right.nodes := by
  obtain ⟨sizes, each⟩ := List.forall₂_iff_get.mp (similar_iff.mp same)
  refine List.forall₂_iff_get.mpr ⟨sizes, fun place inLeft inRight => ⟨?_, ?_⟩⟩
  · have here : left.idAt? place = some (left.nodes.get ⟨place, inLeft⟩).id := by
      rw [idAt?, List.getElem?_eq_getElem inLeft]
      rfl
    have there := idAt?_of_position? sizes (position?_of_idAt? distinct here)
    rw [idAt?, List.getElem?_eq_getElem inRight] at there
    exact Option.some.inj there
  · refine (each place inLeft inRight).imp fun source isInput target samePlace => ?_
    exact counterpart_of_samePlace (closed.mem_ids (List.get_mem _ _) isInput) samePlace

/-- A graph is similar to a valid one if its nodes correspond to those of the valid one. -/
theorem similar_iff_matchedBy (wellFormed : left.WellFormed) (wellFormedRight : right.WellFormed)
    (closed : Closed ∅ left.nodes) :
    left.similar right = true ↔ ∃ number : NodeId → NodeId,
      Set.InjOn number {id | id ∈ left.ids} ∧
        List.Forall₂ (Node.MatchedBy number) left.nodes right.nodes := by
  constructor
  · intro same
    have sizes : left.size = right.size := (similar_iff.mp same).length_eq
    exact ⟨left.counterpart right, injOn_counterpart wellFormedRight.distinct sizes,
      matchedBy_of_similar wellFormed.distinct closed same⟩
  · rintro ⟨number, injective, nodes⟩
    exact similar_of_matchedBy closed injective nodes

end Graph

/-- Similarity is equality up to the identities of nodes.  It is symmetric and transitive, and
reflexive exactly on the graphs without not-a-number literals; it holds between a valid graph
without such literals and all its renumberings.  It carries validity over, and the correspondence of
places takes operations, records, keywords and references of one graph to those of the other.
Between well-formed graphs, as all editing produces, it is a correspondence of nodes. -/
theorem similarity_is_equality_up_to_identity :
    (∀ left right : Graph, left.similar right = true → right.similar left = true) ∧
    (∀ first second third : Graph, first.similar second = true → second.similar third = true →
      first.similar third = true) ∧
    (∀ graph : Graph, graph.similar graph = true ↔ graph.FreeOfNaN) ∧
    (∀ left right : Graph, left.validate = .ok () → left.FreeOfNaN → left.Renumbered right →
      left.similar right = true) ∧
    (∀ left right : Graph, left.similar right = true →
      (left.validate = .ok () ↔ right.validate = .ok ()) ∧
      List.Forall₂ (fun node other =>
        node.op = other.op ∧ node.info = other.info ∧ node.kwargs.keys = other.kwargs.keys ∧
          node.inputs.map left.position? = other.inputs.map right.position?)
        left.nodes right.nodes) ∧
    ∀ left right : Graph, left.WellFormed → right.WellFormed → left.validate = .ok () →
      (left.similar right = true ↔ ∃ number : NodeId → NodeId,
        Set.InjOn number {id | id ∈ left.ids} ∧
          List.Forall₂ (Node.MatchedBy number) left.nodes right.nodes) := by
  refine ⟨fun _ _ => Graph.similar_symm, fun _ _ _ => Graph.similar_trans,
    fun _ => Graph.similar_self_iff, ?_, ?_, ?_⟩
  · rintro left right valid free ⟨number, injective, nodes⟩
    have closed := (Graph.validate_eq_ok_iff.mp valid).closed
    exact Graph.similar_of_matchedBy closed injective (Graph.Renumbered.matchedBy free nodes)
  · intro left right same
    refine ⟨⟨Graph.validate_of_similar same,
      Graph.validate_of_similar (Graph.similar_symm same)⟩, ?_⟩
    refine (Graph.similar_iff.mp same).imp fun node other here => ?_
    exact ⟨here.op, here.info, here.keywords, here.map_inputs⟩
  · intro left right wellFormed wellFormedRight valid
    exact Graph.similar_iff_matchedBy wellFormed wellFormedRight
      (Graph.validate_eq_ok_iff.mp valid).closed

/-- A call that reads an input thrice and a double, under the given numbers and name. -/
def numberedCall (input call output : NodeId) (name : String) (number : Binary64) : Graph where
  nodes :=
    [{ op := .placeholder, id := input, name := "input" },
      { op := .callFunction ⟨"torch.add"⟩,
        args := [.ref input, .tuple [.literal (.float number), .ref input]],
        kwargs := (∅ : Kwargs NodeId).insert "alpha" (.ref input), info := some {}, id := call,
        name },
      { op := .output, args := [.ref call], id := output, name := "output" }]
  created := 8

/-- The two zeros agree, so similar graphs need not be renumberings of each other. -/
theorem similarity_of_numberedCalls :
    let zero : Binary64 := ⟨0⟩
    let negativeZero : Binary64 := ⟨0x8000000000000000⟩
    let nan : Binary64 := ⟨0x7ff8000000000000⟩
    let ordered := numberedCall ⟨0⟩ ⟨1⟩ ⟨2⟩ "add"
    let scattered := numberedCall ⟨5⟩ ⟨2⟩ ⟨7⟩ "sum"
    ((ordered zero).similar (scattered zero) = true ∧
      (ordered zero).similar (scattered negativeZero) = true ∧
      (scattered negativeZero).validate = .ok () ∧
      ∃ number : NodeId → NodeId,
        Set.InjOn number {id | id ∈ (ordered zero).ids} ∧
        List.Forall₂ (Node.MatchedBy number) (ordered zero).nodes
          (scattered negativeZero).nodes) ∧
    ¬(ordered nan).similar (ordered nan) = true := by
  obtain ⟨-, -, refl, renumbered, carried, matched⟩ := similarity_is_equality_up_to_identity
  intro zero negativeZero nan ordered scattered
  have direct : (ordered zero).similar (scattered zero) = true := by
    refine renumbered _ _ (by decide) (by decide) ?_
    refine ⟨fun id => ⟨[5, 2, 7].getD id.index 0⟩, List.inj_on_of_nodup_map (by decide), ?_⟩
    exact .cons ⟨rfl, rfl⟩ (.cons ⟨rfl, rfl⟩ (.cons ⟨rfl, rfl⟩ .nil))
  have zeros : (ordered zero).similar (scattered negativeZero) = true := by decide +kernel
  refine ⟨⟨direct, zeros, (carried _ _ zeros).1.mp (by decide), ?_⟩, ?_⟩
  · exact (matched _ _ ⟨by decide, by decide⟩ ⟨by decide, by decide⟩ (by decide)).mp zeros
  · rw [refl]
    decide

end OpGraph
