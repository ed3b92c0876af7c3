import OpGraph.Node
import OpGraph.Outcome

/-!
# Laws of substitution

Arguments are terms over references, and `Argument.bind` is their substitution.  A substitution
that may fail succeeds exactly when every reference has an image, and it then agrees with the plain
substitution of these images (`Argument.traverse_eq_ok_iff`).  So the laws of `bind` are all that is
needed about `traverse`.  When it fails, it does so as the leftmost reference without an image
(`Argument.traverse_eq_error_iff`).

The same laws hold of keyword arguments and of instructions.
-/

namespace OpGraph

namespace Outcome

variable {ε α β : Type}

/-- A computation over a list succeeds when each of its parts does, with their results. -/
theorem mapM_eq_ok_iff {compute : α → Except ε β} {succeeds : α → Prop} {value : α → β}
    {items : List α} {results : List β}
    (each : ∀ item ∈ items, ∀ result,
      compute item = .ok result ↔ succeeds item ∧ value item = result) :
    items.mapM compute = .ok results ↔
      (∀ item ∈ items, succeeds item) ∧ items.map value = results := by
  induction items generalizing results with
  | nil =>
      constructor
      · intro success
        obtain rfl := Except.ok.inj success
        simp
      · rintro ⟨-, rfl⟩
        rfl
  | cons item rest ih =>
      have later := fun other member => each other (List.mem_cons_of_mem _ member)
      rw [List.mapM_cons]
      constructor
      · intro success
        obtain ⟨first, computed, remaining⟩ := bind_eq_ok.mp success
        obtain ⟨others, computedRest, same⟩ := bind_eq_ok.mp remaining
        obtain rfl := Except.ok.inj same
        obtain ⟨here, rfl⟩ := (each item List.mem_cons_self _).mp computed
        obtain ⟨all, rfl⟩ := (ih later).mp computedRest
        exact ⟨List.forall_mem_cons.mpr ⟨here, all⟩, rfl⟩
      · rintro ⟨all, rfl⟩
        obtain ⟨here, others⟩ := List.forall_mem_cons.mp all
        have computed := (each item List.mem_cons_self _).mpr ⟨here, rfl⟩
        have computedRest := (ih later).mpr ⟨others, rfl⟩
        exact bind_eq_ok.mpr ⟨_, computed, bind_eq_ok.mpr ⟨_, computedRest, rfl⟩⟩

/-- A computation over a list fails as one of its parts does. -/
theorem exists_of_mapM_eq_error {compute : α → Except ε β} {items : List α} {cause : ε}
    (failure : items.mapM compute = .error cause) :
    ∃ item ∈ items, compute item = .error cause := by
  induction items with
  | nil => cases failure
  | cons item rest ih =>
      rw [List.mapM_cons] at failure
      rcases bind_eq_error.mp failure with here | ⟨first, -, failure⟩
      · exact ⟨item, List.mem_cons_self, here⟩
      · rcases bind_eq_error.mp failure with later | ⟨others, -, impossible⟩
        · obtain ⟨other, member, there⟩ := ih later
          exact ⟨other, List.mem_cons_of_mem _ member, there⟩
        · cases impossible

/-- The cause of a failure. -/
def cause? : Except ε α → Option ε
  | .ok _ => none
  | .error cause => some cause

theorem cause?_eq_some {outcome : Except ε α} {cause : ε} :
    cause? outcome = some cause ↔ outcome = .error cause := by
  cases outcome with
  | ok value => simp [cause?]
  | error other => simp [cause?]

theorem cause?_eq_none {outcome : Except ε α} :
    cause? outcome = none ↔ ∃ value, outcome = .ok value := by
  cases outcome with
  | ok value => simp [cause?]
  | error other => simp [cause?]

end Outcome

namespace Argument

variable {ρ σ τ ε : Type}

/-- Induction on arguments, with a hypothesis for every item of a tuple. -/
@[induction_eliminator]
theorem induction {motive : Argument ρ → Prop}
    (ref : ∀ target, motive (ref target)) (literal : ∀ value, motive (literal value))
    (tuple : ∀ items, (∀ item ∈ items, motive item) → motive (tuple items)) :
    ∀ argument, motive argument
  | .ref target => ref target
  | .literal value => literal value
  | .tuple items => tuple items fun item _ => induction ref literal tuple item

theorem traverseAll_eq_mapM (image : ρ → Except ε (Argument σ)) (items : List (Argument ρ)) :
    traverseAll image items = items.mapM (traverse image) := by
  induction items with
  | nil => rfl
  | cons item rest ih =>
      rw [traverseAll, ih, List.mapM_cons]

theorem mem_refsAll {items : List (Argument ρ)} {target : ρ} :
    target ∈ refsAll items ↔ ∃ item ∈ items, target ∈ item.refs := by
  rw [refsAll_eq_flatMap, List.mem_flatMap]

/-- The references of a substituted argument are those of the images, from left to right. -/
theorem refs_bind (image : ρ → Argument σ) (argument : Argument ρ) :
    (argument.bind image).refs = argument.refs.flatMap fun target => (image target).refs := by
  induction argument with
  | ref target => simp [bind, refs]
  | literal value => rfl
  | tuple items ih =>
      simp only [bind, refs, bindAll_eq_map, refsAll_eq_flatMap, List.flatMap_map,
        List.flatMap_assoc]
      rw [List.flatMap_def, List.flatMap_def, List.map_congr_left ih]

theorem mem_refs_bind {image : ρ → Argument σ} {argument : Argument ρ} {target : σ} :
    target ∈ (argument.bind image).refs ↔
      ∃ source ∈ argument.refs, target ∈ (image source).refs := by
  rw [refs_bind, List.mem_flatMap]

theorem bind_congr {left right : ρ → Argument σ} {argument : Argument ρ}
    (same : ∀ target ∈ argument.refs, left target = right target) :
    argument.bind left = argument.bind right := by
  induction argument with
  | ref target => exact same target (by simp [refs])
  | literal value => rfl
  | tuple items ih =>
      simp only [bind, bindAll_eq_map]
      congr 1
      apply List.map_congr_left
      intro item member
      apply ih item member
      intro target isRef
      exact same target (mem_refsAll.mpr ⟨item, member, isRef⟩)

@[simp]
theorem bind_ref (argument : Argument ρ) : argument.bind ref = argument := by
  induction argument with
  | ref target => rfl
  | literal value => rfl
  | tuple items ih =>
      simp only [bind, bindAll_eq_map]
      rw [List.map_congr_left ih, List.map_id']

theorem bind_bind (first : ρ → Argument σ) (second : σ → Argument τ) (argument : Argument ρ) :
    (argument.bind first).bind second = argument.bind fun target => (first target).bind second := by
  induction argument with
  | ref target => rfl
  | literal value => rfl
  | tuple items ih =>
      simp only [bind, bindAll_eq_map, List.map_map]
      congr 1
      exact List.map_congr_left ih

/-- A reference has an image under a substitution that may fail. -/
def Bound (image : ρ → Except ε (Argument σ)) (target : ρ) : Prop :=
  ∃ value, image target = .ok value

/-- A substitution that may fail, with an empty tuple wherever it does. -/
def total (image : ρ → Except ε (Argument σ)) (target : ρ) : Argument σ :=
  match image target with
  | .ok value => value
  | .error _ => tuple []

theorem total_of_eq_ok {image : ρ → Except ε (Argument σ)} {target : ρ} {value : Argument σ}
    (found : image target = .ok value) : total image target = value := by
  rw [total, found]

theorem eq_ok_iff_bound {image : ρ → Except ε (Argument σ)} {target : ρ} {value : Argument σ} :
    image target = .ok value ↔ Bound image target ∧ total image target = value := by
  constructor
  · intro found
    exact ⟨⟨value, found⟩, total_of_eq_ok found⟩
  · rintro ⟨⟨other, found⟩, rfl⟩
    rw [total_of_eq_ok found, found]

/-- A substitution that may fail succeeds when every reference has an image. -/
theorem traverse_eq_ok_iff {image : ρ → Except ε (Argument σ)} {argument : Argument ρ}
    {result : Argument σ} :
    argument.traverse image = .ok result ↔
      (∀ target ∈ argument.refs, Bound image target) ∧ argument.bind (total image) = result := by
  induction argument generalizing result with
  | ref target =>
      simp only [traverse, refs, bind, List.mem_singleton, forall_eq]
      exact eq_ok_iff_bound
  | literal value => simp [traverse, refs, bind]
  | tuple items ih =>
      simp only [traverse, refs, bind, bindAll_eq_map, traverseAll_eq_mapM]
      rw [Outcome.map_eq_ok]
      constructor
      · rintro ⟨values, success, rfl⟩
        obtain ⟨all, rfl⟩ :=
          (Outcome.mapM_eq_ok_iff fun item member _ => ih item member).mp success
        refine ⟨fun target isRef => ?_, rfl⟩
        obtain ⟨item, member, inItem⟩ := mem_refsAll.mp isRef
        exact all item member target inItem
      · rintro ⟨all, rfl⟩
        refine ⟨_, (Outcome.mapM_eq_ok_iff fun item member _ => ih item member).mpr ⟨?_, rfl⟩, rfl⟩
        intro item member target inItem
        exact all target (mem_refsAll.mpr ⟨item, member, inItem⟩)

/-- Several arguments fail as the first of their references that has no image, if each of them
does. -/
theorem cause?_traverseAll {image : ρ → Except ε (Argument σ)} {items : List (Argument ρ)}
    (each : ∀ item ∈ items, Outcome.cause? (item.traverse image) =
      item.refs.findSome? fun target => Outcome.cause? (image target)) :
    Outcome.cause? (traverseAll image items) =
      (refsAll items).findSome? fun target => Outcome.cause? (image target) := by
  induction items with
  | nil => rfl
  | cons item rest ih =>
      obtain ⟨first, others⟩ := List.forall_mem_cons.mp each
      rw [refsAll, List.findSome?_append, ← first, ← ih others, traverseAll]
      cases item.traverse image with
      | error cause => rfl
      | ok value =>
          cases traverseAll image rest with
          | error cause => rfl
          | ok values => rfl

/-- A substitution fails as the first reference without an image does. -/
theorem cause?_traverse (image : ρ → Except ε (Argument σ)) (argument : Argument ρ) :
    Outcome.cause? (argument.traverse image) =
      argument.refs.findSome? fun target => Outcome.cause? (image target) := by
  induction argument with
  | ref target => simp [traverse, refs]
  | literal value => rfl
  | tuple items ih =>
      rw [refs, ← cause?_traverseAll ih, traverse]
      cases traverseAll image items with
      | error cause => rfl
      | ok values => rfl

theorem traverse_eq_error_iff {image : ρ → Except ε (Argument σ)} {argument : Argument ρ}
    {cause : ε} :
    argument.traverse image = .error cause ↔
      ∃ before target after, argument.refs = before ++ target :: after ∧
        image target = .error cause ∧ ∀ earlier ∈ before, Bound image earlier := by
  rw [← Outcome.cause?_eq_some, cause?_traverse, List.findSome?_eq_some_iff]
  simp only [Outcome.cause?_eq_some, Outcome.cause?_eq_none]
  rfl

/-- A substitution fails only as one of its images does. -/
theorem exists_of_traverse_eq_error {image : ρ → Except ε (Argument σ)} {argument : Argument ρ}
    {cause : ε} (failure : argument.traverse image = .error cause) :
    ∃ target, image target = .error cause := by
  obtain ⟨_, target, _, _, failed, _⟩ := traverse_eq_error_iff.mp failure
  exact ⟨target, failed⟩

theorem traverseAll_eq_ok_iff {image : ρ → Except ε (Argument σ)} {items : List (Argument ρ)}
    {results : List (Argument σ)} :
    traverseAll image items = .ok results ↔
      (∀ target ∈ refsAll items, Bound image target) ∧ bindAll (total image) items = results := by
  rw [traverseAll_eq_mapM, bindAll_eq_map,
    Outcome.mapM_eq_ok_iff fun item _ _ => traverse_eq_ok_iff]
  constructor
  · rintro ⟨all, rfl⟩
    refine ⟨fun target isRef => ?_, rfl⟩
    obtain ⟨item, member, inItem⟩ := mem_refsAll.mp isRef
    exact all item member target inItem
  · rintro ⟨all, rfl⟩
    refine ⟨fun item member target inItem => ?_, rfl⟩
    exact all target (mem_refsAll.mpr ⟨item, member, inItem⟩)

theorem mentions_iff [DecidableEq ρ] {target : ρ} {argument : Argument ρ} :
    argument.mentions target = true ↔ target ∈ argument.refs :=
  List.contains_iff_mem

/-- Substituting for one reference removes it, unless both arguments refer to it. -/
theorem mentions_bind_single [DecidableEq ρ] (old : ρ) (new argument : Argument ρ) :
    (argument.bind (single old new)).mentions old =
      (argument.mentions old && new.mentions old) := by
  rw [Bool.eq_iff_iff, Bool.and_eq_true, mentions_iff, mentions_iff, mentions_iff, mem_refs_bind]
  constructor
  · rintro ⟨source, isRef, remains⟩
    by_cases same : source = old
    · subst same
      rw [single, if_pos rfl] at remains
      exact ⟨isRef, remains⟩
    · rw [single, if_neg same] at remains
      exact absurd (List.mem_singleton.mp remains).symm same
  · rintro ⟨isRef, remains⟩
    exact ⟨old, isRef, by rwa [single, if_pos rfl]⟩

/-- The ways to go through an argument agree.  A substituted argument has the references of the
images in the order of the argument, substitutions compose, and substituting its own references
leaves an argument as it is.  Exactly the listed references are mentioned.  A substitution that may
fail does so as the first reference without an image, and otherwise it substitutes the images.  A
reference that is substituted for remains exactly if it occurs in both arguments. -/
theorem traversals_agree [DecidableEq ρ] (argument : Argument ρ)
    (first : ρ → Argument σ) (second : σ → Argument τ) (image : ρ → Except ε (Argument σ)) :
    (argument.bind first).refs = argument.refs.flatMap (fun target => (first target).refs) ∧
    (argument.bind first).bind second =
      argument.bind (fun target => (first target).bind second) ∧
    argument.bind ref = argument ∧
    (∀ target, argument.mentions target = true ↔ target ∈ argument.refs) ∧
    (∀ cause, argument.traverse image = .error cause ↔
      ∃ before target after, argument.refs = before ++ target :: after ∧
        image target = .error cause ∧
        ∀ earlier ∈ before, ∃ value, image earlier = .ok value) ∧
    (∀ result, argument.traverse image = .ok result ↔
      ∃ values : ρ → Argument σ,
        (∀ target ∈ argument.refs, image target = .ok (values target)) ∧
          argument.bind values = result) ∧
    ∀ old new, (argument.bind (single old new)).mentions old = false ↔
      argument.mentions old = false ∨ new.mentions old = false := by
  refine ⟨refs_bind first argument, bind_bind first second argument, bind_ref argument,
    fun _ => mentions_iff, fun _ => traverse_eq_error_iff, fun result => ?_, fun old new => ?_⟩
  · rw [traverse_eq_ok_iff]
    constructor
    · rintro ⟨bound, rfl⟩
      exact ⟨total image, fun target isRef => eq_ok_iff_bound.mpr ⟨bound target isRef, rfl⟩, rfl⟩
    · rintro ⟨values, found, rfl⟩
      exact ⟨fun target isRef => ⟨values target, found target isRef⟩,
        bind_congr fun target isRef => total_of_eq_ok (found target isRef)⟩
  · rw [mentions_bind_single, Bool.and_eq_false_iff]

-- The references below a tuple come before those after it.
example : (tuple [tuple [ref 1, ref 4], ref 3]).traverse
    (fun id => if id < 3 then .ok (ref (id + 10)) else .error id) =
      (.error 4 : Except Nat (Argument Nat)) := rfl

end Argument

namespace Kwargs

variable {ρ σ ε : Type}

theorem mem_refs {kwargs : Kwargs ρ} {target : ρ} :
    target ∈ kwargs.refs ↔
      ∃ (keyword : String) (argument : Argument ρ),
        kwargs[keyword]? = some argument ∧ target ∈ argument.refs := by
  simp only [refs, List.mem_flatMap, Prod.exists]
  constructor
  · rintro ⟨keyword, argument, member, isRef⟩
    exact ⟨keyword, argument, Std.ExtTreeMap.mem_toList_iff_getElem?_eq_some.mp member, isRef⟩
  · rintro ⟨keyword, argument, found, isRef⟩
    exact ⟨keyword, argument, Std.ExtTreeMap.mem_toList_iff_getElem?_eq_some.mpr found, isRef⟩

@[simp]
theorem getElem?_bind (image : ρ → Argument σ) (kwargs : Kwargs ρ) (keyword : String) :
    (kwargs.bind image)[keyword]? = kwargs[keyword]?.map (Argument.bind image) :=
  Std.ExtTreeMap.getElem?_map

theorem mem_refs_bind {image : ρ → Argument σ} {kwargs : Kwargs ρ} {target : σ} :
    target ∈ (kwargs.bind image).refs ↔
      ∃ source ∈ kwargs.refs, target ∈ (image source).refs := by
  simp only [mem_refs, getElem?_bind, Option.map_eq_some_iff]
  constructor
  · rintro ⟨keyword, _, ⟨argument, found, rfl⟩, inside⟩
    obtain ⟨source, isRef, isTarget⟩ := Argument.mem_refs_bind.mp inside
    exact ⟨source, ⟨keyword, argument, found, isRef⟩, isTarget⟩
  · rintro ⟨source, ⟨keyword, argument, found, isRef⟩, isTarget⟩
    exact ⟨keyword, _, ⟨argument, found, rfl⟩,
      Argument.mem_refs_bind.mpr ⟨source, isRef, isTarget⟩⟩

theorem bind_congr {left right : ρ → Argument σ} {kwargs : Kwargs ρ}
    (same : ∀ target ∈ kwargs.refs, left target = right target) :
    kwargs.bind left = kwargs.bind right := by
  apply Std.ExtTreeMap.ext_getElem?
  intro keyword
  rw [getElem?_bind, getElem?_bind]
  cases found : kwargs[keyword]? with
  | none => rfl
  | some argument =>
      simp only [Option.map_some, Option.some.injEq]
      apply Argument.bind_congr
      intro target isRef
      exact same target (mem_refs.mpr ⟨keyword, argument, found, isRef⟩)

@[simp]
theorem bind_ref (kwargs : Kwargs ρ) : kwargs.bind Argument.ref = kwargs := by
  apply Std.ExtTreeMap.ext_getElem?
  intro keyword
  rw [getElem?_bind]
  cases kwargs[keyword]? with
  | none => rfl
  | some argument => simp

theorem bind_bind (first : ρ → Argument σ) (second : σ → Argument τ) (kwargs : Kwargs ρ) :
    (kwargs.bind first).bind second = kwargs.bind fun target => (first target).bind second := by
  apply Std.ExtTreeMap.ext_getElem?
  intro keyword
  simp only [getElem?_bind, Option.map_map, Function.comp_def, Argument.bind_bind]

theorem bind_erase (image : ρ → Argument σ) (kwargs : Kwargs ρ) (keyword : String) :
    bind image (kwargs.erase keyword) = (kwargs.bind image).erase keyword := by
  apply Std.ExtTreeMap.ext_getElem?
  intro other
  simp only [getElem?_bind, Std.ExtTreeMap.getElem?_erase]
  split <;> rfl

theorem erase_insert (kwargs : Kwargs ρ) (keyword : String) (argument : Argument ρ) :
    (kwargs.insert keyword argument : Kwargs ρ).erase keyword = kwargs.erase keyword := by
  apply Std.ExtTreeMap.ext_getElem?
  intro other
  simp only [Std.ExtTreeMap.getElem?_erase, Std.ExtTreeMap.getElem?_insert]
  split <;> rfl

theorem erase_eq_self {kwargs : Kwargs ρ} {keyword : String} (absent : kwargs[keyword]? = none) :
    kwargs.erase keyword = kwargs := by
  apply Std.ExtTreeMap.ext_getElem?
  intro other
  rw [Std.ExtTreeMap.getElem?_erase]
  split
  · next same => rw [← Std.LawfulEqOrd.eq_of_compare same, absent]
  · rfl

theorem mem_refs_of_mem_refs_erase {kwargs : Kwargs ρ} {keyword : String} {target : ρ}
    (isRef : target ∈ refs (kwargs.erase keyword)) : target ∈ kwargs.refs := by
  obtain ⟨other, argument, found, inArgument⟩ := mem_refs.mp isRef
  rw [Std.ExtTreeMap.getElem?_erase] at found
  split at found
  · cases found
  · exact mem_refs.mpr ⟨other, argument, found, inArgument⟩

theorem values_eq_map_snd (kwargs : Kwargs ρ) : kwargs.values = kwargs.toList.map Prod.snd := by
  obtain ⟨⟨quotient⟩⟩ := kwargs
  induction quotient using Quot.ind with
  | mk tree =>
      show Std.DTreeMap.Internal.Impl.values tree.inner =
        (Std.DTreeMap.Internal.Impl.Const.toList tree.inner).map Prod.snd
      rw [Std.DTreeMap.Internal.Impl.values_eq_map_snd,
        Std.DTreeMap.Internal.Impl.Const.toList_eq_toListModel_map]
      simp

theorem values_bind (image : ρ → Argument σ) (kwargs : Kwargs ρ) :
    (kwargs.bind image).values = kwargs.values.map (Argument.bind image) := by
  rw [values_eq_map_snd, values_eq_map_snd, bind, Std.ExtTreeMap.toList_map, List.map_map,
    List.map_map]
  rfl

/-- Changing the arguments in a list of entries is changing those of the collection. -/
theorem ofList_map_toList (change : Argument ρ → Argument σ) (kwargs : Kwargs ρ) :
    (Std.ExtTreeMap.ofList (kwargs.toList.map fun entry =>
      (entry.1, change entry.2)) : Kwargs σ) = kwargs.map fun _ => change := by
  rw [← Std.ExtTreeMap.toList_map (f := fun _ => change)]
  apply Std.ExtTreeMap.ext_getElem?
  intro keyword
  generalize (kwargs.map fun _ => change) = changed
  cases found : changed[keyword]? with
  | some argument =>
      exact Std.ExtTreeMap.getElem?_ofList_of_mem Std.ReflOrd.compare_self
        Std.ExtTreeMap.distinct_keys_toList
        (Std.ExtTreeMap.mem_toList_iff_getElem?_eq_some.mpr found)
  | none =>
      apply Std.ExtTreeMap.getElem?_ofList_of_contains_eq_false
      rw [Std.ExtTreeMap.map_fst_toList_eq_keys, Std.ExtTreeMap.contains_keys,
        Std.ExtTreeMap.contains_eq_isSome_getElem?, found]
      rfl

/-- A substitution that may fail succeeds when every reference has an image. -/
theorem traverse_eq_ok_iff {image : ρ → Except ε (Argument σ)} {kwargs : Kwargs ρ}
    {result : Kwargs σ} :
    kwargs.traverse image = .ok result ↔
      (∀ target ∈ kwargs.refs, Argument.Bound image target) ∧
        kwargs.bind (Argument.total image) = result := by
  have each : ∀ entry ∈ kwargs.toList, ∀ changed : String × Argument σ,
      (do return (entry.1, ← entry.2.traverse image) : Except ε (String × Argument σ)) =
          .ok changed ↔
        (∀ target ∈ entry.2.refs, Argument.Bound image target) ∧
          (entry.1, entry.2.bind (Argument.total image)) = changed := by
    intro entry _ changed
    rw [Outcome.bind_eq_ok]
    constructor
    · rintro ⟨value, success, same⟩
      obtain ⟨bound, rfl⟩ := Argument.traverse_eq_ok_iff.mp success
      exact ⟨bound, Except.ok.inj same⟩
    · rintro ⟨bound, rfl⟩
      exact ⟨_, Argument.traverse_eq_ok_iff.mpr ⟨bound, rfl⟩, rfl⟩
  rw [traverse, Outcome.bind_eq_ok]
  constructor
  · rintro ⟨entries, success, same⟩
    obtain ⟨all, rfl⟩ := (Outcome.mapM_eq_ok_iff each).mp success
    obtain rfl := Except.ok.inj same
    refine ⟨?_, (ofList_map_toList _ _).symm⟩
    intro target isRef
    simp only [refs, List.mem_flatMap] at isRef
    obtain ⟨entry, member, inArgument⟩ := isRef
    exact all entry member target inArgument
  · rintro ⟨all, rfl⟩
    refine ⟨_, (Outcome.mapM_eq_ok_iff each).mpr ⟨?_, rfl⟩, ?_⟩
    · intro entry member target inArgument
      apply all
      simp only [refs, List.mem_flatMap]
      exact ⟨entry, member, inArgument⟩
    · exact congrArg Except.ok (ofList_map_toList _ _)

theorem getElem?_of_traverse {image : ρ → Except ε (Argument σ)} {kwargs : Kwargs ρ}
    {result : Kwargs σ} {keyword : String} {argument : Argument ρ}
    (success : kwargs.traverse image = .ok result) (found : kwargs[keyword]? = some argument) :
    ∃ value, result[keyword]? = some value ∧ argument.traverse image = .ok value := by
  obtain ⟨bound, rfl⟩ := traverse_eq_ok_iff.mp success
  refine ⟨argument.bind (Argument.total image), ?_, ?_⟩
  · rw [getElem?_bind, found]
    rfl
  · refine Argument.traverse_eq_ok_iff.mpr ⟨fun target isRef => bound target ?_, rfl⟩
    exact mem_refs.mpr ⟨keyword, argument, found, isRef⟩

end Kwargs

namespace Instruction

variable {ε : Type}

theorem mem_inputs {instruction : Instruction} {target : NodeId} :
    target ∈ instruction.inputs ↔
      target ∈ Argument.refsAll instruction.args ∨ target ∈ instruction.kwargs.refs :=
  List.mem_append

theorem mem_inputs_bind {image : NodeId → Arg} {instruction : Instruction} {target : NodeId} :
    target ∈ (instruction.bind image).inputs ↔
      ∃ source ∈ instruction.inputs, target ∈ (image source).refs := by
  have args : target ∈ Argument.refsAll (Argument.bindAll image instruction.args) ↔
      ∃ source ∈ Argument.refsAll instruction.args, target ∈ (image source).refs :=
    @Argument.mem_refs_bind _ _ image (.tuple instruction.args) target
  simp only [mem_inputs, bind, args, Kwargs.mem_refs_bind]
  constructor
  · rintro (⟨source, isRef, isTarget⟩ | ⟨source, isRef, isTarget⟩)
    · exact ⟨source, Or.inl isRef, isTarget⟩
    · exact ⟨source, Or.inr isRef, isTarget⟩
  · rintro ⟨source, isRef | isRef, isTarget⟩
    · exact Or.inl ⟨source, isRef, isTarget⟩
    · exact Or.inr ⟨source, isRef, isTarget⟩

theorem bind_congr {left right : NodeId → Arg} {instruction : Instruction}
    (same : ∀ target ∈ instruction.inputs, left target = right target) :
    instruction.bind left = instruction.bind right := by
  have args : Argument.bindAll left instruction.args = Argument.bindAll right instruction.args := by
    rw [Argument.bindAll_eq_map, Argument.bindAll_eq_map]
    apply List.map_congr_left
    intro item member
    apply Argument.bind_congr
    intro target isRef
    exact same target (mem_inputs.mpr (Or.inl (Argument.mem_refsAll.mpr ⟨item, member, isRef⟩)))
  have kwargs : instruction.kwargs.bind left = instruction.kwargs.bind right :=
    Kwargs.bind_congr fun target isRef => same target (mem_inputs.mpr (Or.inr isRef))
  rw [bind, bind, args, kwargs]

@[simp]
theorem bind_ref (instruction : Instruction) : instruction.bind Argument.ref = instruction := by
  have args : Argument.bindAll Argument.ref instruction.args = instruction.args := by
    rw [Argument.bindAll_eq_map, List.map_congr_left fun item _ => Argument.bind_ref item,
      List.map_id']
  rw [bind, args, Kwargs.bind_ref]

theorem bind_bind (first second : NodeId → Arg) (instruction : Instruction) :
    (instruction.bind first).bind second =
      instruction.bind fun target => (first target).bind second := by
  simp only [bind, Argument.bindAll_eq_map, List.map_map, Function.comp_def, Argument.bind_bind,
    Kwargs.bind_bind]

/-- Substituting for a node that is not read changes nothing. -/
theorem bind_single_of_not_mem {old : NodeId} {new : Arg} {instruction : Instruction}
    (absent : old ∉ instruction.inputs) :
    instruction.bind (Argument.single old new) = instruction := by
  have same : ∀ target ∈ instruction.inputs,
      Argument.single old new target = Argument.ref target := by
    intro target isInput
    rw [Argument.single, if_neg]
    rintro rfl
    exact absent isInput
  rw [bind_congr same, bind_ref]

/-- A substitution that may fail succeeds when every read node has an image. -/
theorem traverse_eq_ok_iff {image : NodeId → Except ε Arg} {instruction result : Instruction} :
    instruction.traverse image = .ok result ↔
      (∀ target ∈ instruction.inputs, Argument.Bound image target) ∧
        instruction.bind (Argument.total image) = result := by
  rw [traverse, Outcome.bind_eq_ok]
  constructor
  · rintro ⟨args, foundArgs, remaining⟩
    obtain ⟨kwargs, foundKwargs, same⟩ := Outcome.bind_eq_ok.mp remaining
    obtain ⟨boundArgs, rfl⟩ := Argument.traverseAll_eq_ok_iff.mp foundArgs
    obtain ⟨boundKwargs, rfl⟩ := Kwargs.traverse_eq_ok_iff.mp foundKwargs
    refine ⟨?_, Except.ok.inj same⟩
    intro target isInput
    rcases mem_inputs.mp isInput with inArgs | inKwargs
    · exact boundArgs target inArgs
    · exact boundKwargs target inKwargs
  · rintro ⟨bound, rfl⟩
    have boundArgs := fun target isRef => bound target (mem_inputs.mpr (Or.inl isRef))
    have boundKwargs := fun target isRef => bound target (mem_inputs.mpr (Or.inr isRef))
    exact ⟨_, Argument.traverseAll_eq_ok_iff.mpr ⟨boundArgs, rfl⟩,
      Outcome.bind_eq_ok.mpr ⟨_, Kwargs.traverse_eq_ok_iff.mpr ⟨boundKwargs, rfl⟩, rfl⟩⟩

/-- A substitution fails only as one of its images does. -/
theorem exists_of_traverse_eq_error {image : NodeId → Except ε Arg} {instruction : Instruction}
    {cause : ε} (failure : instruction.traverse image = .error cause) :
    ∃ target, image target = .error cause := by
  rcases Outcome.bind_eq_error.mp failure with inArgs | ⟨args, -, failure⟩
  · rw [Argument.traverseAll_eq_mapM] at inArgs
    obtain ⟨argument, -, failure⟩ := Outcome.exists_of_mapM_eq_error inArgs
    exact Argument.exists_of_traverse_eq_error failure
  · rcases Outcome.bind_eq_error.mp failure with inKwargs | ⟨kwargs, -, impossible⟩
    · rcases Outcome.bind_eq_error.mp inKwargs with inEntries | ⟨entries, -, impossible⟩
      · obtain ⟨entry, -, failure⟩ := Outcome.exists_of_mapM_eq_error inEntries
        rcases Outcome.bind_eq_error.mp failure with failure | ⟨value, -, impossible⟩
        · exact Argument.exists_of_traverse_eq_error failure
        · cases impossible
      · cases impossible
    · cases impossible

end Instruction

end OpGraph
