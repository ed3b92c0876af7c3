import OpGraph.Submodule

/-!
# Dotted paths

A path leads from a submodule through the children that its segments name (`descend`).  The table of
submodules is asked for the part before the first dot, and what it finds for the rest (`findByCut`).
Both lead to the same submodule, and a path after another one leads on from where that one led, also
when segments are empty.
-/

namespace OpGraph

namespace Dotted

/-- The segments of a name. -/
def segments (name : String) : List String :=
  firstSegment name :: laterSegments name

/-- Cut a name at its first dot, if it has one. -/
def cutAt : List Char → Option (List Char × List Char)
  | [] => none
  | character :: rest =>
    if character = '.' then some ([], rest)
    else (cutAt rest).map fun (first, later) => (character :: first, later)

/-- The parts of a name before and after its first dot. -/
def cut? (name : String) : Option (String × String) :=
  (cutAt name.toList).map fun (first, later) => (String.ofList first, String.ofList later)

theorem split_append (left right : List Char) :
    split (left ++ '.' :: right) =
      ((split left).1, (split left).2 ++ (split right).1 :: (split right).2) := by
  induction left with
  | nil => simp [split]
  | cons character rest ih =>
      rw [List.cons_append, split, split, ih]
      dsimp only
      split <;> rfl

theorem split_of_noDot {characters : List Char} (noDot : '.' ∉ characters) :
    split characters = (characters, []) := by
  induction characters with
  | nil => rfl
  | cons character rest ih =>
      simp only [List.mem_cons, not_or] at noDot
      rw [split, ih noDot.2]
      exact if_neg (Ne.symm noDot.1)

theorem append_of_cutAt {characters first later : List Char}
    (cut : cutAt characters = some (first, later)) :
    characters = first ++ '.' :: later ∧ '.' ∉ first := by
  induction characters generalizing first with
  | nil => cases cut
  | cons character rest ih =>
      rw [cutAt] at cut
      split at cut
      · next isDot =>
        obtain ⟨rfl, rfl⟩ := Prod.mk.inj (Option.some.inj cut)
        exact ⟨by rw [isDot]; rfl, List.not_mem_nil⟩
      · next noDot =>
        obtain ⟨⟨before, after⟩, found, same⟩ := Option.map_eq_some_iff.mp cut
        obtain ⟨rfl, rfl⟩ := Prod.mk.inj same
        obtain ⟨rfl, absent⟩ := ih found
        exact ⟨rfl, by simpa [Ne.symm noDot] using absent⟩

theorem noDot_of_cutAt {characters : List Char} (uncut : cutAt characters = none) :
    '.' ∉ characters := by
  induction characters with
  | nil => exact List.not_mem_nil
  | cons character rest ih =>
      rw [cutAt] at uncut
      split at uncut
      · cases uncut
      · next noDot => simpa [Ne.symm noDot] using ih (Option.map_eq_none_iff.mp uncut)

theorem toList_joined (path rest : String) :
    (path ++ "." ++ rest).toList = path.toList ++ '.' :: rest.toList := by
  simp

theorem firstSegment_joined (path rest : String) :
    firstSegment (path ++ "." ++ rest) = firstSegment path := by
  rw [firstSegment, toList_joined, split_append, firstSegment]

theorem laterSegments_joined (path rest : String) :
    laterSegments (path ++ "." ++ rest) = laterSegments path ++ segments rest := by
  rw [laterSegments, toList_joined, split_append, List.map_append]
  rfl

theorem segments_of_noDot {name : String} (noDot : '.' ∉ name.toList) : segments name = [name] := by
  rw [segments, firstSegment, laterSegments, split_of_noDot noDot, String.ofList_toList]
  rfl

/-- A name is cut at its first dot. -/
theorem eq_of_cut? {name first rest : String} (cut : cut? name = some (first, rest)) :
    name = first ++ "." ++ rest ∧ '.' ∉ first.toList := by
  obtain ⟨⟨before, after⟩, found, same⟩ := Option.map_eq_some_iff.mp cut
  obtain ⟨rfl, rfl⟩ := Prod.mk.inj same
  obtain ⟨letters, noDot⟩ := append_of_cutAt found
  constructor
  · rw [← String.toList_inj, toList_joined, String.toList_ofList, String.toList_ofList, letters]
  · rwa [String.toList_ofList]

end Dotted

namespace Forest

/-- The submodule at a path: the part before the first dot is looked up, and the rest leads on from
there. -/
def findByCut (forest : Forest) (path : String) : Option Submodule :=
  match Dotted.cut? path with
  | some (first, rest) => (forest.lookup first).bind (Submodule.descendant? · rest)
  | none => forest.lookup path

theorem resolve?_append (forest : Forest) (first second : String) (later rest : List String) :
    forest.resolve? first (later ++ second :: rest) =
      (forest.resolve? first later).bind fun found => resolve? found.children second rest := by
  induction later generalizing forest first with
  | nil =>
      rw [List.nil_append, resolve?, resolve?]
      cases forest.lookup first <;> rfl
  | cons third later ih =>
      rw [List.cons_append, resolve?, resolve?]
      cases forest.lookup first with
      | none => rfl
      | some found => exact ih found.children third

/-- A path leads on from where the path before it led. -/
theorem find?_joined (forest : Forest) (path rest : String) :
    forest.find? (path ++ "." ++ rest) =
      (forest.find? path).bind (Submodule.descendant? · rest) := by
  rw [find?, Dotted.firstSegment_joined, Dotted.laterSegments_joined, Dotted.segments,
    resolve?_append]
  rfl

theorem find?_of_noDot (forest : Forest) {path : String} (noDot : '.' ∉ path.toList) :
    forest.find? path = forest.lookup path := by
  obtain ⟨first, later⟩ := List.cons.inj (Dotted.segments_of_noDot noDot)
  rw [find?, first, later, resolve?]

theorem find?_eq_findByCut (forest : Forest) (path : String) :
    forest.find? path = forest.findByCut path := by
  unfold findByCut
  split
  · next first rest cut =>
    obtain ⟨rfl, noDot⟩ := Dotted.eq_of_cut? cut
    rw [find?_joined, find?_of_noDot forest noDot]
  · next uncut =>
    exact find?_of_noDot forest (Dotted.noDot_of_cutAt (Option.map_eq_none_iff.mp uncut))

/-- A lookup in the table finds what there is, or fails with the whole path. -/
theorem get_eq (forest : Forest) (path : String) :
    forest.get path = (forest.findByCut path).elim (.error (.unknownSubmodule path)) .ok := by
  rw [get, find?_eq_findByCut]
  cases forest.findByCut path <;> rfl

end Forest

namespace Submodule

/-- The submodule that the children with the given names lead to. -/
def descend (submodule : Submodule) (names : List String) : Option Submodule :=
  names.foldlM child? submodule

theorem resolve?_children (submodule : Submodule) (first : String) (later : List String) :
    Forest.resolve? submodule.children first later = submodule.descend (first :: later) := by
  induction later generalizing submodule first with
  | nil =>
      rw [Forest.resolve?, descend, List.foldlM_cons, child?]
      cases submodule.children.lookup first <;> rfl
  | cons second later ih =>
      rw [Forest.resolve?, descend, List.foldlM_cons, child?]
      cases submodule.children.lookup first with
      | none => rfl
      | some found => exact ih found second

theorem descendant?_eq_descend (submodule : Submodule) (path : String) :
    submodule.descendant? path = submodule.descend (Dotted.segments path) :=
  resolve?_children submodule _ _

theorem descendant?_joined (submodule : Submodule) (path rest : String) :
    submodule.descendant? (path ++ "." ++ rest) =
      (submodule.descendant? path).bind (descendant? · rest) :=
  Forest.find?_joined submodule.children path rest

end Submodule

end OpGraph
