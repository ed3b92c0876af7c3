import OpGraph.Normalization

/-!
# Overrides in a forest

Whether an input check is overridden is kept with the submodule, and a forest holds all submodules.
So an expansion overrides the check of the called submodule in the forest, traces the submodule that
stands there then, and releases the override again, whatever came of it.  A normalization hands the
forest from one expansion to the next.

No override outlives the expansion that it was made for (`Forest.expandAt_of_get`), so a
normalization that carries the forest along visits nodes as one that keeps it fixed does
(`Scan.visitIn_eq`).
-/

namespace OpGraph

theorem Report.ofExcept_ok_bind {α β : Type} (value : α) (next : α → Report β) :
    (Report.ofExcept (.ok value) >>= next) = next value := rfl

namespace Submodule

theorem holdCheck_of_free {submodule : Submodule} (free : submodule.overridden = false) :
    submodule.holdCheck = .ok { submodule with overridden := true } := by
  rw [holdCheck, free]
  rfl

theorem holdCheck_of_overridden {submodule : Submodule}
    (overridden : submodule.overridden = true) :
    submodule.holdCheck = .error (.checkAlreadyOverridden submodule.className) := by
  rw [holdCheck, if_pos overridden]

/-- Releasing an override takes back what overriding did. -/
theorem releaseCheck_held {submodule : Submodule} (free : submodule.overridden = false) :
    ({ submodule with overridden := true } : Submodule).releaseCheck = submodule := by
  cases submodule
  cases free
  rfl

end Submodule

namespace Forest

/-! ### Changes of a submodule in a forest -/

theorem lookup_modifyNamed (change : Submodule → Submodule) (forest : Forest) (name : String) :
    (forest.modifyNamed change name).lookup name = (forest.lookup name).map change := by
  induction forest with
  | nil => rfl
  | cons entry rest ih =>
    obtain ⟨other, submodule⟩ := entry
    rw [modifyNamed]
    split
    · next same => simp [same]
    · next different =>
      have unequal : (name == other) = false := by simpa using Ne.symm different
      rw [List.lookup_cons, List.lookup_cons, unequal]
      exact ih

theorem modifyNamed_modifyNamed (first second : Submodule → Submodule) (forest : Forest)
    (name : String) :
    (forest.modifyNamed first name).modifyNamed second name =
      forest.modifyNamed (fun submodule => second (first submodule)) name := by
  induction forest with
  | nil => rfl
  | cons entry rest ih =>
    obtain ⟨other, submodule⟩ := entry
    by_cases same : other = name
    · simp [modifyNamed, same]
    · simp [modifyNamed, same, ih]

theorem modifyNamed_eq_self {change : Submodule → Submodule} {forest : Forest} {name : String}
    (same : ∀ submodule, forest.lookup name = some submodule → change submodule = submodule) :
    forest.modifyNamed change name = forest := by
  induction forest with
  | nil => rfl
  | cons entry rest ih =>
    obtain ⟨other, submodule⟩ := entry
    rw [modifyNamed]
    split
    · next here => rw [same submodule (by simp [here])]
    · next different =>
      have unequal : (name == other) = false := by simpa using Ne.symm different
      rw [ih fun found isFound => same found (by rw [List.lookup_cons, unequal]; exact isFound)]

theorem resolve?_modifyAt (change : Submodule → Submodule) (forest : Forest) (first : String)
    (later : List String) :
    (forest.modifyAt change first later).resolve? first later =
      (forest.resolve? first later).map change := by
  induction later generalizing forest first with
  | nil => exact lookup_modifyNamed change forest first
  | cons second later ih =>
    rw [modifyAt, resolve?, resolve?, lookup_modifyNamed]
    cases forest.lookup first with
    | none => rfl
    | some submodule => exact ih submodule.children second

theorem modifyAt_modifyAt (change next : Submodule → Submodule) (forest : Forest) (first : String)
    (later : List String) :
    (forest.modifyAt change first later).modifyAt next first later =
      forest.modifyAt (fun submodule => next (change submodule)) first later := by
  induction later generalizing forest first with
  | nil => exact modifyNamed_modifyNamed change next forest first
  | cons second later ih =>
    simp only [modifyAt, modifyNamed_modifyNamed, ih]

theorem modifyAt_eq_self {change : Submodule → Submodule} {forest : Forest} {first : String}
    {later : List String}
    (same : ∀ submodule, forest.resolve? first later = some submodule →
      change submodule = submodule) : forest.modifyAt change first later = forest := by
  induction later generalizing forest first with
  | nil => exact modifyNamed_eq_self same
  | cons second later ih =>
    refine modifyNamed_eq_self fun submodule found => ?_
    have below : Forest.modifyAt change submodule.children second later = submodule.children :=
      ih fun lower isLower => same lower (by rw [resolve?, found]; exact isLower)
    cases submodule
    simp only [below]

theorem find?_modify (change : Submodule → Submodule) (forest : Forest) (path : String) :
    (forest.modify path change).find? path = (forest.find? path).map change :=
  resolve?_modifyAt change forest _ _

theorem modify_modify (change next : Submodule → Submodule) (forest : Forest) (path : String) :
    (forest.modify path change).modify path next =
      forest.modify path fun submodule => next (change submodule) :=
  modifyAt_modifyAt change next forest _ _

theorem modify_eq_self {change : Submodule → Submodule} {forest : Forest} {path : String}
    (same : ∀ submodule, forest.find? path = some submodule → change submodule = submodule) :
    forest.modify path change = forest :=
  modifyAt_eq_self same

theorem get_eq_ok_iff {forest : Forest} {path : String} {submodule : Submodule} :
    forest.get path = .ok submodule ↔ forest.find? path = some submodule := by
  unfold get
  split
  · next found => simp [found]
  · next missing => simp [missing]

/-! ### Expansion -/

/-- Expand a call of the submodule at a path, at the insertion point of a graph.  The result is the
forest, the graph and the value of the call. -/
def expandAt (forest : Forest) (path scope : String) (graph : Graph) (args : List Arg)
    (kwargs : Kwargs NodeId) : Forest × Graph × Report Arg :=
  match forest.get path with
  | .error cause => (forest, graph, .fail cause)
  | .ok submodule =>
    match forest.holdCheck path with
    | .error cause => (forest, graph, Expansion.enclose submodule.className (.fail cause))
    | .ok held =>
      let (changed, report) :=
        match held.get path with
        | .error cause => (graph, .fail cause)
        | .ok called => Expansion.splice scope graph called args kwargs
      (held.releaseCheck path, changed, Expansion.enclose submodule.className report)

theorem holdCheck_of_get {forest : Forest} {path : String} {submodule : Submodule}
    (found : forest.get path = .ok submodule) :
    forest.holdCheck path =
      submodule.holdCheck.map fun held => forest.modify path fun _ => held := by
  rw [holdCheck, found]
  show (do let held ← submodule.holdCheck; return forest.modify path fun _ => held) = _
  cases submodule.holdCheck <;> rfl

/-- A check that is not overridden can be, and the override can be released again. -/
theorem exists_holdCheck {forest : Forest} {path : String} {submodule : Submodule}
    (found : forest.get path = .ok submodule) (free : submodule.overridden = false) :
    ∃ held, forest.holdCheck path = .ok held ∧
      held.get path = .ok { submodule with overridden := true } ∧
        held.releaseCheck path = forest := by
  have isThere := get_eq_ok_iff.mp found
  refine ⟨forest.modify path fun _ => { submodule with overridden := true }, ?_, ?_, ?_⟩
  · rw [holdCheck_of_get found, Submodule.holdCheck_of_free free]
    rfl
  · rw [get_eq_ok_iff, find?_modify, isThere]
    rfl
  · rw [releaseCheck, modify_modify]
    refine modify_eq_self fun other isOther => ?_
    obtain rfl := Option.some.inj (isThere.symm.trans isOther)
    exact Submodule.releaseCheck_held free

/-- An expansion leaves the forest as it was, and does to the graph what the expansion of the called
submodule does. -/
theorem expandAt_of_get {forest : Forest} {path : String} {submodule : Submodule}
    (found : forest.get path = .ok submodule) (scope : String) (graph : Graph) (args : List Arg)
    (kwargs : Kwargs NodeId) :
    forest.expandAt path scope graph args kwargs =
      let expansion := expand scope graph submodule args kwargs
      (forest, expansion.graph, expansion.report) := by
  cases overridden : submodule.overridden with
  | true =>
    have held := Submodule.holdCheck_of_overridden overridden
    simp only [expandAt, found, holdCheck_of_get found, held, Except.map, expand]
  | false =>
    obtain ⟨held, holding, called, released⟩ := exists_holdCheck found overridden
    have heldHere := Submodule.holdCheck_of_free overridden
    simp only [expandAt, found, holding, called, released, expand, heldHere]

end Forest

/-! ### Normalization -/

namespace Scan

/-- Replace the next node, a call of the submodule at `path`, by the expansion of the call. -/
def expandCallIn (forest : Forest) (scan : Scan) (node : Node) (path : String) :
    Forest × Report Scan :=
  let (graph, changed, report) := scan.graph.insertingBefore node.id fun graph =>
    let (changed, graph, report) :=
      forest.expandAt path (path ++ ".") graph node.args node.kwargs
    (graph, changed, report)
  (changed, do
    let value ← report
    let graph ← Report.ofExcept ((graph.redirect node.id value).erase node.id)
    return { scan with graph })

/-- Normalize the next node; only a call of a submodule has to do with the forest. -/
def visitIn (rules : Rules) (forest : Forest) (scan : Scan) (node : Node) :
    Forest × Report Scan :=
  match node.op with
  | .callModule path =>
    match forest.get path with
    | .error cause => (forest, .fail cause)
    | .ok submodule =>
      if rules.opaqueClasses.contains submodule.className then
        (forest, do
          .note (.keptOpaque node.name submodule.className)
          return scan.advance)
      else
        let (changed, report) := scan.expandCallIn forest node path
        (changed, do
          .note (.expanding node.name submodule.className)
          report)
  | _ => (forest, scan.visit rules forest node)

theorem expandCallIn_of_get {forest : Forest} {path : String} {submodule : Submodule}
    (found : forest.get path = .ok submodule) (scan : Scan) (node : Node) :
    scan.expandCallIn forest node path = (forest, scan.expandCall node path submodule) := by
  simp only [expandCallIn, expandCall, Graph.insertingBefore, Forest.expandAt_of_get found]

/-- A visit leaves the forest as it was. -/
theorem visitIn_eq (rules : Rules) (forest : Forest) (scan : Scan) (node : Node) :
    scan.visitIn rules forest node = (forest, scan.visit rules forest node) := by
  unfold visitIn
  split
  · next path isCall =>
    split
    · next missing => simp only [visit, isCall, missing]; rfl
    · next submodule found =>
      simp only [visit, isCall, found, expandCallIn_of_get found, Report.ofExcept_ok_bind]
      split <;> rfl
  · rfl

theorem below_visitIn {rules : Rules} {forest : Forest} {scan next : Scan} {node : Node}
    (found : scan.graph.nodes[scan.cursor]? = some node)
    (visited : (scan.visitIn rules forest node).2.outcome = .ok next) : next.Below scan := by
  rw [visitIn_eq] at visited
  exact below_visit found visited

/-- Normalize nodes until none is ahead. -/
def runIn (rules : Rules) (forest : Forest) (scan : Scan) : Forest × Report Graph :=
  match _found : scan.graph.nodes[scan.cursor]? with
  | none => (forest, return scan.graph)
  | some node =>
    let visited := scan.visitIn rules forest node
    match _outcome : visited.2.outcome with
    | .error cause => (visited.1, ⟨visited.2.journal, .error cause⟩)
    | .ok next =>
      let later := next.runIn rules visited.1
      (later.1, ⟨visited.2.journal ++ later.2.journal, later.2.outcome⟩)
termination_by (scan.graph.moduleCalls, scan.ahead)
decreasing_by
  rcases below_visitIn _found _outcome with fewer | ⟨asMany, nearer⟩
  · exact Prod.Lex.left _ _ fewer
  · rcases Nat.lt_or_eq_of_le asMany with fewer | equal
    · exact Prod.Lex.left _ _ fewer
    · rw [equal]
      exact Prod.Lex.right _ nearer

end Scan

/-- The normalized graph of a program, and the forest after the normalization. -/
def normalizeIn (rules : Rules) (program : Program) : Forest × Report Graph :=
  let (forest, report) :=
    Scan.runIn rules program.submodules { graph := program.graph, cursor := 0 }
  (forest, do
    .note (.normalizing program.graph.size)
    let graph ← report
    .note (.normalized graph.size)
    return graph)

end OpGraph
