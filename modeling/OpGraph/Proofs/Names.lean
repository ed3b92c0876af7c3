import OpGraph.Proofs.Arena

/-!
# Names of nodes

A node is named by its base name if no earlier node was formed from it, and otherwise by the base
name with the number of the earlier ones attached.  Along a script this number is read off the
creations (`Graph.NamedBy`), so that nodes with one base name have distinct names, and so have nodes
with numbers attached.

A base name may itself look like a base name with a number attached.  Names clash in this way
(`Clash`) and in no other.
-/

namespace OpGraph

/-- The name formed from a base name that has been used `uses` times before. -/
def numberedName (base : String) : Nat → String
  | 0 => base
  | uses + 1 => base ++ "_" ++ toString (uses + 1)

/-- The last mark of a list divides it in one way. -/
theorem append_cons_inj_of_last {α : Type} {mark : α} {left right leftEnd rightEnd : List α}
    (absentLeft : mark ∉ leftEnd) (absentRight : mark ∉ rightEnd)
    (same : left ++ mark :: leftEnd = right ++ mark :: rightEnd) :
    left = right ∧ leftEnd = rightEnd := by
  -- If one part before the mark were longer, the other part behind it would hold the mark.
  have behind : ∀ {between shorter longer : List α},
      mark :: longer = between ++ mark :: shorter → mark ∉ longer → between = [] := by
    intro between shorter longer split absent
    cases between with
    | nil => rfl
    | cons first further =>
        have tail := (List.cons.inj split).2
        exact absurd (tail ▸ List.mem_append_right further List.mem_cons_self) absent
  rcases List.append_eq_append_iff.mp same with ⟨between, rfl, tail⟩ | ⟨between, rfl, tail⟩
  · obtain rfl := behind tail absentLeft
    exact ⟨(List.append_nil _).symm, (List.cons.inj tail).2⟩
  · obtain rfl := behind tail absentRight
    exact ⟨List.append_nil _, (List.cons.inj tail).2.symm⟩

/-- A name with a number attached tells its base name and the number. -/
theorem numberedName_succ_inj {base other : String} {uses others : Nat}
    (same : numberedName base (uses + 1) = numberedName other (others + 1)) :
    base = other ∧ uses = others := by
  have letters : base.toList ++ '_' :: Nat.toDigits 10 (uses + 1) =
      other.toList ++ '_' :: Nat.toDigits 10 (others + 1) := by
    simpa [numberedName, Nat.toString_eq_repr, Nat.toList_repr] using congrArg String.toList same
  obtain ⟨bases, digits⟩ := append_cons_inj_of_last Nat.underscore_not_in_toDigits
    Nat.underscore_not_in_toDigits letters
  have counts := congrArg (Nat.ofDigitChars 10 · 0) digits
  exact ⟨String.toList_inj.mp bases, by simpa using counts⟩

theorem Graph.freshName_eq (graph : Graph) (base : String) :
    graph.freshName base = numberedName base (graph.nameUses.getD base 0) := by
  rw [freshName]
  cases graph.nameUses.getD base 0 with
  | zero | succ uses => rfl

/-! ### Names of creations -/

/-- How often the base name of a creation was used by the creations before it. -/
def earlierUses (bases : List String) (index : Nat) : Nat :=
  (bases.take index).count (bases.getD index "")

/-- The name given by a creation, when the creations use the base names listed. -/
def givenName (bases : List String) (index : Nat) : String :=
  numberedName (bases.getD index "") (earlierUses bases index)

/-- The base name of one creation, which takes it as it is, is the name of another one with a number
attached. -/
structure Clash (bases : List String) (plain numbered : Nat) : Prop where
  first : earlierUses bases plain = 0
  later : earlierUses bases numbered ≠ 0
  same : bases.getD plain "" = givenName bases numbered

section

variable {bases : List String} {index other : Nat}

theorem earlierUses_lt (earlier : index < other) (inRange : other ≤ bases.length)
    (same : bases.getD index "" = bases.getD other "") :
    earlierUses bases index < earlierUses bases other := by
  have listed : index < bases.length := Nat.lt_of_lt_of_le earlier inRange
  have further : bases.take (index + 1) = bases.take index ++ [bases.getD index ""] := by
    rw [List.take_succ_eq_append_getElem listed, List.getD_eq_getElem?_getD,
      List.getElem?_eq_getElem listed, Option.getD_some]
  calc earlierUses bases index
      < (bases.take (index + 1)).count (bases.getD index "") := by
        rw [further, List.count_append, List.count_singleton_self]
        exact Nat.lt_succ_self _
    _ ≤ earlierUses bases other := by
        rw [earlierUses, ← same]
        exact (List.take_prefix_take_left earlier).sublist.count_le _

/-- Creations with one base name use it a different number of times after others. -/
theorem eq_of_earlierUses_eq (listed : index < bases.length) (otherListed : other < bases.length)
    (same : bases.getD index "" = bases.getD other "")
    (uses : earlierUses bases index = earlierUses bases other) : index = other := by
  rcases Nat.lt_trichotomy index other with before | equal | after
  · exact absurd uses (Nat.ne_of_lt (earlierUses_lt before (Nat.le_of_lt otherListed) same))
  · exact equal
  · exact absurd uses (Nat.ne_of_gt (earlierUses_lt after (Nat.le_of_lt listed) same.symm))

theorem givenName_of_first (first : earlierUses bases index = 0) :
    givenName bases index = bases.getD index "" := by
  rw [givenName, first, numberedName]

/-- Two creations give the same name only in a clash. -/
theorem givenName_eq_iff (listed : index < bases.length) (otherListed : other < bases.length)
    (different : index ≠ other) :
    givenName bases index = givenName bases other ↔
      Clash bases index other ∨ Clash bases other index := by
  have apart : bases.getD index "" = bases.getD other "" →
      earlierUses bases index ≠ earlierUses bases other := fun same uses =>
    different (eq_of_earlierUses_eq listed otherListed same uses)
  constructor
  · intro equal
    cases uses : earlierUses bases index with
    | zero =>
        cases others : earlierUses bases other with
        | zero =>
            rw [givenName_of_first uses, givenName_of_first others] at equal
            exact absurd (uses.trans others.symm) (apart equal)
        | succ number =>
            rw [givenName_of_first uses] at equal
            exact Or.inl ⟨uses, by rw [others]; exact Nat.succ_ne_zero number, equal⟩
    | succ number =>
        cases others : earlierUses bases other with
        | zero =>
            rw [givenName_of_first others] at equal
            exact Or.inr ⟨others, by rw [uses]; exact Nat.succ_ne_zero number, equal.symm⟩
        | succ further =>
            rw [givenName, givenName, uses, others] at equal
            obtain ⟨same, rfl⟩ := numberedName_succ_inj equal
            exact absurd (uses.trans others.symm) (apart same)
  · rintro (clash | clash)
    · rw [givenName_of_first clash.first, clash.same]
    · rw [givenName_of_first clash.first, clash.same]

end

/-! ### Names along a script -/

/-- Overwriting a node leaves its name. -/
def Edit.KeepsName : Edit → Prop
  | .overwrite _ change => ∀ node, (change node).name = node.name
  | _ => True

/-- Overwriting nodes leaves their names. -/
def Script.KeepsNames : Script → Prop
  | .done => True
  | .edit first rest => first.KeepsName ∧ rest.KeepsNames
  | .before _ inner rest => inner.KeepsNames ∧ rest.KeepsNames

/-- The base names that the creations of a script use, in order. -/
def Script.bases (script : Script) (graph : Graph) : List String :=
  (script.run graph).2.map Creation.base

namespace Graph

/-- The nodes of a graph have the names given by creations that used the base names listed. -/
structure NamedBy (graph : Graph) (bases : List String) : Prop where
  count : graph.created = bases.length
  uses : ∀ base, graph.nameUses.getD base 0 = bases.count base
  names : ∀ node ∈ graph.nodes,
    node.id.index < bases.length ∧ node.name = givenName bases node.id.index

theorem namedBy_empty : ({} : Graph).NamedBy [] :=
  ⟨rfl, fun _ => rfl, fun _ member => absurd member List.not_mem_nil⟩

theorem givenName_append {bases : List String} {index : Nat} (listed : index < bases.length)
    (more : List String) : givenName (bases ++ more) index = givenName bases index := by
  have same : (bases ++ more).getD index "" = bases.getD index "" := by
    rw [List.getD_eq_getElem?_getD, List.getElem?_append_left listed, ← List.getD_eq_getElem?_getD]
  rw [givenName, givenName, earlierUses, earlierUses, same,
    List.take_append_of_le_length (Nat.le_of_lt listed)]

/-- The next creation uses its base name after all earlier ones. -/
theorem givenName_concat (bases : List String) (base : String) :
    givenName (bases ++ [base]) bases.length = numberedName base (bases.count base) := by
  have found : (bases ++ [base]).getD bases.length "" = base := by
    rw [List.getD_eq_getElem?_getD, List.getElem?_concat_length, Option.getD_some]
  rw [givenName, earlierUses, found, List.take_left]

/-- A graph whose nodes keep identity and name keeps to the same base names. -/
theorem NamedBy.of_names {graph changed : Graph} {bases : List String}
    (named : graph.NamedBy bases) (created : changed.created = graph.created)
    (uses : changed.nameUses = graph.nameUses)
    (names : ∀ node ∈ changed.nodes, ∃ old ∈ graph.nodes, old.id = node.id ∧ old.name = node.name) :
    changed.NamedBy bases := by
  refine ⟨created.trans named.count, fun base => uses ▸ named.uses base, fun node member => ?_⟩
  obtain ⟨old, isOld, sameId, sameName⟩ := names node member
  rw [← sameId, ← sameName]
  exact named.names old isOld

theorem NamedBy.emit {graph : Graph} {bases : List String} (named : graph.NamedBy bases)
    (instruction : Instruction) (hint : Option String) :
    (graph.emit instruction hint).NamedBy (bases ++ [baseName instruction.op hint]) := by
  refine ⟨?_, fun base => ?_, fun node member => ?_⟩
  · rw [List.length_append, ← named.count]
    rfl
  · show (graph.nameUses.insert _ (graph.nameUses.getD _ 0 + 1)).getD base 0 = _
    rw [Std.ExtTreeMap.getD_insert, List.count_append, named.uses, named.uses]
    split
    · next same => rw [Std.compare_eq_iff_eq.mp same, List.count_singleton_self]
    · next different =>
      have unequal : ¬ (baseName instruction.op hint == base) = true := fun same =>
        different (Std.compare_eq_iff_eq.mpr (eq_of_beq same))
      rw [List.count_singleton, if_neg unequal]
      rfl
  · rcases List.mem_cons.mp ((nodes_emit_perm graph instruction hint).mem_iff.mp member) with
      rfl | old
    · have index : (graph.newNode instruction hint).id.index = bases.length := named.count
      rw [index, givenName_concat, List.length_append]
      refine ⟨Nat.lt_succ_self _, ?_⟩
      rw [newNode, freshName_eq, named.uses]
    · obtain ⟨listed, name⟩ := named.names node old
      rw [givenName_append listed, List.length_append]
      exact ⟨Nat.lt_succ_of_lt listed, name⟩

theorem NamedBy.edit {graph changed : Graph} {created : List Creation} {edit : Edit}
    {bases : List String} (named : graph.NamedBy bases)
    (edited : Edited graph edit changed created) (keepsName : edit.KeepsName) :
    changed.NamedBy (bases ++ created.map Creation.base) := by
  cases edited with
  | created instruction hint => exact named.emit instruction hint
  | overwritten id change =>
      rw [List.map_nil, List.append_nil]
      refine named.of_names rfl rfl fun node member => ?_
      obtain ⟨old, isOld, rfl⟩ := List.mem_map.mp member
      refine ⟨old, isOld, ?_⟩
      split
      · next same => exact ⟨same, (keepsName old).symm⟩
      · exact ⟨rfl, rfl⟩
  | redirected old new =>
      rw [List.map_nil, List.append_nil]
      refine named.of_names rfl rfl fun node member => ?_
      obtain ⟨old, isOld, rfl⟩ := List.mem_map.mp member
      exact ⟨old, isOld, rfl, rfl⟩
  | removed id =>
      rw [List.map_nil, List.append_nil]
      exact named.of_names rfl rfl fun node member =>
        ⟨node, List.mem_of_mem_filter member, rfl, rfl⟩
  | failed =>
      rw [List.map_nil, List.append_nil]
      exact named

end Graph

/-- The nodes of a script keep to the base names of its creations. -/
theorem Script.namedBy_run {script : Script} {graph : Graph} {bases : List String}
    (named : graph.NamedBy bases) (keepsNames : script.KeepsNames) :
    (script.run graph).1.NamedBy (bases ++ script.bases graph) := by
  induction script generalizing graph bases with
  | done => exact (List.append_nil bases).symm ▸ named
  | edit first rest ih =>
      have further := ih (named.edit (graph.edited first) keepsNames.1) keepsNames.2
      rw [List.append_assoc] at further
      show Graph.NamedBy _ (bases ++ (graph.creations first ++ _).map Creation.base)
      rw [List.map_append]
      exact further
  | before anchor inner rest ihInner ihRest =>
      have entered : ({ graph with insertionPoint := some anchor } : Graph).NamedBy bases :=
        ⟨named.count, named.uses, named.names⟩
      have inside := ihInner entered keepsNames.1
      have left : (graph.insertingBefore anchor inner.run).1.NamedBy
          (bases ++ inner.bases { graph with insertionPoint := some anchor }) :=
        ⟨inside.count, inside.uses, inside.names⟩
      have further := ihRest left keepsNames.2
      rw [List.append_assoc] at further
      show Graph.NamedBy _ (bases ++ (_ ++ _ : List Creation).map Creation.base)
      rw [List.map_append]
      exact further

/-- Every node has the name given by its creation, and the names of the nodes are distinct if and
only if no node took a base name that is the name of another node with a number attached. -/
theorem names_distinct_iff (script : Script) (keepsNames : script.KeepsNames) :
    (∀ node ∈ (script.run {}).1.nodes, node.name = givenName (script.bases {}) node.id.index) ∧
    (((script.run {}).1.nodes.map Node.name).Nodup ↔
      ∀ plain ∈ (script.run {}).1.ids, ∀ numbered ∈ (script.run {}).1.ids,
        ¬ Clash (script.bases {}) plain.index numbered.index) := by
  have names := (script.namedBy_run Graph.namedBy_empty keepsNames).names
  have ids := script.wellFormed_run.distinct
  rw [List.nil_append] at names
  refine ⟨fun node member => (names node member).2, ?_⟩
  rw [List.nodup_map_iff_inj_on ids.of_map]
  constructor
  · intro distinct plain isPlain numbered isNumbered clash
    obtain ⟨first, isFirst, rfl⟩ := List.mem_map.mp isPlain
    obtain ⟨second, isSecond, rfl⟩ := List.mem_map.mp isNumbered
    have equal : first.name = second.name := by
      rw [(names first isFirst).2, (names second isSecond).2, givenName_of_first clash.first,
        clash.same]
    obtain rfl := distinct first isFirst second isSecond equal
    exact clash.later clash.first
  · intro noClash first isFirst second isSecond equal
    by_contra different
    have apart : first.id.index ≠ second.id.index := fun same =>
      different (List.inj_on_of_nodup_map ids isFirst isSecond (NodeId.ext same))
    rw [(names first isFirst).2, (names second isSecond).2,
      givenName_eq_iff (names first isFirst).1 (names second isSecond).1 apart] at equal
    have firstListed : first.id ∈ (script.run {}).1.ids := List.mem_map_of_mem isFirst
    have secondListed : second.id ∈ (script.run {}).1.ids := List.mem_map_of_mem isSecond
    rcases equal with clash | clash
    · exact noClash _ firstListed _ secondListed clash
    · exact noClash _ secondListed _ firstListed clash

/-- Three inputs, of which the third is to be called what the second one is. -/
def repeatedInputs : Script :=
  .edit (.create { op := .placeholder } (some "x")) <|
  .edit (.create { op := .placeholder } (some "x")) <|
  .edit (.create { op := .placeholder } (some "x_1")) .done

theorem repeatedInputs_clash :
    (repeatedInputs.run {}).1.nodes.map Node.name = ["x", "x_1", "x_1"] ∧
    Clash (repeatedInputs.bases {}) 2 1 ∧
    ¬ ((repeatedInputs.run {}).1.nodes.map Node.name).Nodup := by
  have bases : repeatedInputs.bases {} = ["x", "x", "x_1"] := by
    show [Dotted.flatten "x", Dotted.flatten "x", Dotted.flatten "x_1"] = _
    cbv
  have ids : (repeatedInputs.run {}).1.ids = [⟨0⟩, ⟨1⟩, ⟨2⟩] := by cbv
  have clash : Clash (repeatedInputs.bases {}) 2 1 := by
    rw [bases]
    exact ⟨by decide, by decide, by cbv⟩
  refine ⟨by cbv, clash, fun distinct => ?_⟩
  have keepsNames : repeatedInputs.KeepsNames := ⟨trivial, trivial, trivial, trivial⟩
  exact (names_distinct_iff repeatedInputs keepsNames).2.mp distinct ⟨2⟩ (by rw [ids]; decide) ⟨1⟩
    (by rw [ids]; decide) clash

end OpGraph
