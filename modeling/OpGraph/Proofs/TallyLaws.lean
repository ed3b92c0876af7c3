import Mathlib.Data.List.Nodup
import OpGraph.Proofs.Counting

/-!
# Laws of tallies

Tallies are compared as tables of tables, so two of them could agree in all counts and still differ:
a category can be listed without keys, and a key with the count zero.  Counting and merging do
neither (`Tally.Proper`), and a proper tally is determined by its counts
(`Tally.Proper.eq_of_count_eq`).

Counting in turn the entries of another tally adds its counts and its totals.  With this, merging is
addition of counts, and the laws of a commutative monoid are those of addition.
-/

namespace OpGraph

/-- The order of keys: by category, and within a category as texts. -/
def TallyKey.Precedes (first second : TallyKey) : Prop :=
  first.category.rank < second.category.rank ∨
    first.category = second.category ∧ first.key < second.key

namespace Tally

/-! ### Entries -/

theorem mem_toList {tally : Tally} {entry : TallyKey} {count : Nat} :
    (entry, count) ∈ tally.toList ↔ tally.find? entry = some count := by
  rw [toList, find?, Option.bind_eq_some_iff, List.mem_flatMap]
  constructor
  · rintro ⟨⟨category, keys⟩, listed, member⟩
    obtain ⟨⟨key, number⟩, isEntry, same⟩ := List.mem_map.mp member
    obtain ⟨rfl, rfl⟩ := Prod.mk.inj same
    exact ⟨keys, Std.ExtTreeMap.mem_toList_iff_getElem?_eq_some.mp listed,
      Std.ExtTreeMap.mem_toList_iff_getElem?_eq_some.mp isEntry⟩
  · rintro ⟨keys, listed, isEntry⟩
    exact ⟨(entry.category, keys), Std.ExtTreeMap.mem_toList_iff_getElem?_eq_some.mpr listed,
      List.mem_map.mpr
        ⟨(entry.key, count), Std.ExtTreeMap.mem_toList_iff_getElem?_eq_some.mpr isEntry, rfl⟩⟩

/-- The entries of a tally are listed in ascending order. -/
theorem toList_pairwise_precedes (tally : Tally) :
    tally.toList.Pairwise fun first second => first.1.Precedes second.1 := by
  refine List.pairwise_flatMap.mpr ⟨fun listed _ => ?_, ?_⟩
  · refine List.pairwise_map.mpr (Std.ExtTreeMap.ordered_keys_toList.imp fun below => ?_)
    exact Or.inr ⟨rfl, compareOfLessAndEq_eq_lt.mp below⟩
  · refine Std.ExtTreeMap.ordered_keys_toList.imp fun below first isFirst second isSecond => ?_
    obtain ⟨_, -, rfl⟩ := List.mem_map.mp isFirst
    obtain ⟨_, -, rfl⟩ := List.mem_map.mp isSecond
    exact Or.inl (Nat.compare_eq_lt.mp below)

theorem nodup_map_fst_toList (tally : Tally) : (tally.toList.map Prod.fst).Nodup := by
  refine List.pairwise_map.mpr ((toList_pairwise_precedes tally).imp ?_)
  rintro first second (below | ⟨-, below⟩) same
  · rw [same] at below
    exact Nat.lt_irrefl _ below
  · rw [same] at below
    exact String.lt_irrefl _ below

/-! ### Proper tallies -/

/-- Every category that is listed has a key, and every key that is listed has a count. -/
structure Proper (tally : Tally) : Prop where
  inhabited : ∀ (category : Category) (keys : Std.ExtTreeMap String Nat),
    tally.counts[category]? = some keys → keys ≠ ∅
  positive : ∀ (entry : TallyKey) (count : Nat), tally.find? entry = some count → 0 < count

theorem proper_empty : (∅ : Tally).Proper where
  inhabited category keys listed := by
    rw [show (∅ : Tally).counts = ∅ from rfl, Std.ExtTreeMap.getElem?_empty] at listed
    cases listed
  positive entry count found := by
    rw [find?, show (∅ : Tally).counts = ∅ from rfl, Std.ExtTreeMap.getElem?_empty] at found
    cases found

theorem Proper.add {tally : Tally} (proper : tally.Proper) (entry : TallyKey) {occurrences : Nat}
    (occurs : 0 < occurrences) : (tally.add entry occurrences).Proper where
  inhabited category keys listed := by
    rw [counts_add] at listed
    split at listed
    · obtain rfl := Option.some.inj listed
      exact Std.ExtTreeMap.insert_ne_empty
    · exact proper.inhabited category keys listed
  positive other count found := by
    rw [find?_add] at found
    split at found
    · obtain rfl := Option.some.inj found
      exact Nat.add_pos_right _ occurs
    · exact proper.positive other count found

theorem Proper.foldl_add {tally : Tally} (proper : tally.Proper)
    {entries : List (TallyKey × Nat)} (occur : ∀ entry ∈ entries, 0 < entry.2) :
    (entries.foldl (fun merged entry => merged.add entry.1 entry.2) tally).Proper := by
  induction entries generalizing tally with
  | nil => exact proper
  | cons entry rest ih =>
      obtain ⟨here, later⟩ := List.forall_mem_cons.mp occur
      exact ih (proper.add entry.1 here) later

theorem Proper.merge {tally other : Tally} (proper : tally.Proper) (properOther : other.Proper) :
    (tally.merge other).Proper :=
  proper.foldl_add fun entry member =>
    properOther.positive entry.1 entry.2 (mem_toList.mp member)

theorem Proper.find?_eq {tally : Tally} (proper : tally.Proper) (entry : TallyKey) :
    tally.find? entry =
      if tally.count entry.category entry.key = 0 then none
      else some (tally.count entry.category entry.key) := by
  rw [count]
  cases found : tally.find? entry with
  | none => rfl
  | some count =>
      have positive := proper.positive entry count found
      rw [Option.getD_some, if_neg (Nat.ne_of_gt positive)]

/-- A proper tally lists no more categories than its counts need. -/
theorem Proper.eq_none_of_find? {tally : Tally} (proper : tally.Proper) {category : Category}
    (absent : ∀ key, tally.find? ⟨category, key⟩ = none) : tally.counts[category]? = none := by
  cases listed : tally.counts[category]? with
  | none => rfl
  | some keys =>
      refine absurd (Std.ExtTreeMap.ext_getElem? fun key => ?_)
        (proper.inhabited category keys listed)
      have unlisted := absent key
      rw [find?, listed, Option.bind_some] at unlisted
      rw [unlisted, Std.ExtTreeMap.getElem?_empty]

/-- Proper tallies with the same counts are equal. -/
theorem Proper.eq_of_count_eq {left right : Tally} (properLeft : left.Proper)
    (properRight : right.Proper)
    (same : ∀ category key, left.count category key = right.count category key) : left = right := by
  have found (entry : TallyKey) : left.find? entry = right.find? entry := by
    rw [properLeft.find?_eq, properRight.find?_eq, same]
  refine Tally.ext (Std.ExtTreeMap.ext_getElem? fun category => ?_)
  cases listed : left.counts[category]? with
  | none =>
      refine (properRight.eq_none_of_find? fun key => ?_).symm
      rw [← found, find?, listed, Option.bind_none]
  | some keys =>
      cases listedRight : right.counts[category]? with
      | none =>
          have unlisted : left.counts[category]? = none :=
            properLeft.eq_none_of_find? fun key => by
              rw [found, find?, listedRight, Option.bind_none]
          cases listed.symm.trans unlisted
      | some others =>
          refine congrArg some (Std.ExtTreeMap.ext_getElem? fun key => ?_)
          have equal := found ⟨category, key⟩
          rwa [find?, find?, listed, listedRight, Option.bind_some, Option.bind_some] at equal

-- A key that is listed with the count zero makes a tally differ from the empty one.
example : (∅ : Tally).add ⟨.mutation, "torch.relu_"⟩ 0 ≠ ∅ := by decide +kernel

/-! ### Merging -/

/-- A key has at most one entry, so its count is the sum over its entries. -/
theorem sum_toList_eq_count (tally : Tally) (category : Category) (key : String) :
    (tally.toList.map fun entry => if entry.1 = ⟨category, key⟩ then entry.2 else 0).sum =
      tally.count category key := by
  have others (entries : List (TallyKey × Nat))
      (apart : ⟨category, key⟩ ∉ entries.map Prod.fst) :
      (entries.map fun entry => if entry.1 = ⟨category, key⟩ then entry.2 else 0).sum = 0 := by
    refine List.sum_eq_zero fun number member => ?_
    obtain ⟨entry, isEntry, rfl⟩ := List.mem_map.mp member
    refine if_neg fun same => apart ?_
    exact same ▸ List.mem_map_of_mem isEntry
  rw [count]
  cases found : tally.find? ⟨category, key⟩ with
  | none =>
      refine others _ fun member => ?_
      obtain ⟨entry, isEntry, same⟩ := List.mem_map.mp member
      have listed : tally.find? entry.1 = some entry.2 := mem_toList.mp isEntry
      cases found.symm.trans (same ▸ listed)
  | some count =>
      obtain ⟨before, after, split⟩ := List.append_of_mem (mem_toList.mpr found)
      have nodup := nodup_map_fst_toList tally
      rw [split, List.map_append, List.map_cons, List.nodup_middle, List.nodup_cons,
        List.mem_append, not_or] at nodup
      rw [split, List.map_append, List.map_cons, List.sum_append, List.sum_cons,
        others before nodup.1.1, others after nodup.1.2, if_pos rfl, Nat.zero_add, Nat.add_zero,
        Option.getD_some]

/-- Merging adds counts. -/
theorem count_merge (tally other : Tally) (category : Category) (key : String) :
    (tally.merge other).count category key =
      tally.count category key + other.count category key := by
  rw [← sum_toList_eq_count other]
  exact (measures_count category key).foldl_add tally other.toList

theorem Proper.empty_merge {tally : Tally} (proper : tally.Proper) :
    (∅ : Tally).merge tally = tally := by
  refine (proper_empty.merge proper).eq_of_count_eq proper fun category key => ?_
  rw [count_merge]
  exact Nat.zero_add _

theorem Proper.merge_comm {first second : Tally} (properFirst : first.Proper)
    (properSecond : second.Proper) : first.merge second = second.merge first := by
  refine (properFirst.merge properSecond).eq_of_count_eq (properSecond.merge properFirst)
    fun category key => ?_
  rw [count_merge, count_merge, Nat.add_comm]

theorem Proper.merge_assoc {first second third : Tally} (properFirst : first.Proper)
    (properSecond : second.Proper) (properThird : third.Proper) :
    (first.merge second).merge third = first.merge (second.merge third) := by
  refine ((properFirst.merge properSecond).merge properThird).eq_of_count_eq
    (properFirst.merge (properSecond.merge properThird)) fun category key => ?_
  simp only [count_merge, Nat.add_assoc]

/-- Merging adds totals. -/
theorem Proper.total_merge {other : Tally} (proper : other.Proper) (tally : Tally)
    (category : Category) :
    (tally.merge other).total category = tally.total category + other.total category := by
  -- The entries of the other tally raise all totals alike, also those of the empty tally.
  have raised (start : Tally) := (measures_total category).foldl_add start other.toList
  have whole : other.total category = _ :=
    (congrArg (total · category) proper.empty_merge).symm.trans (raised ∅)
  rw [whole]
  exact (raised tally).trans (congrArg (tally.total category + ·) (Nat.zero_add _).symm)

/-- A tally is empty when nothing has been counted in any category. -/
theorem Proper.isEmpty_iff {tally : Tally} (proper : tally.Proper) :
    tally.isEmpty = true ↔ ∀ category, tally.total category = 0 := by
  constructor
  · intro isEmpty category
    have same : tally = ∅ := Tally.ext (Std.ExtTreeMap.isEmpty_iff.mp isEmpty)
    rw [same]
    rfl
  · intro none
    have same : tally = ∅ := proper.eq_of_count_eq proper_empty fun category key => by
      have bound := sum_split (tally.keysOf category) key
      rw [← total_eq_sum, none category, getD_keysOf] at bound
      exact Nat.eq_zero_of_add_eq_zero_right bound.symm
    rw [same]
    rfl

/-- A proper tally lists exactly the keys that have a count. -/
theorem Proper.mem_toList_iff {tally : Tally} (proper : tally.Proper) {category : Category}
    {key : String} {number : Nat} :
    (⟨category, key⟩, number) ∈ tally.toList ↔
      tally.count category key = number ∧ number ≠ 0 := by
  rw [mem_toList, proper.find?_eq]
  constructor
  · intro found
    split at found
    · cases found
    · next counted =>
      obtain rfl := Option.some.inj found
      exact ⟨rfl, counted⟩
  · rintro ⟨rfl, counted⟩
    exact if_neg counted

/-- A proper tally lists a key once if it has a count, and else not at all. -/
theorem Proper.count_map_fst_toList {tally : Tally} (proper : tally.Proper) (category : Category)
    (key : String) :
    (tally.toList.map Prod.fst).count ⟨category, key⟩ =
      if tally.count category key = 0 then 0 else 1 := by
  split
  · next uncounted =>
    refine List.count_eq_zero.mpr fun member => ?_
    obtain ⟨⟨entry, number⟩, isEntry, rfl⟩ := List.mem_map.mp member
    obtain ⟨same, counted⟩ := proper.mem_toList_iff.mp isEntry
    exact counted (same.symm.trans uncounted)
  · next counted =>
    have member := proper.mem_toList_iff.mpr ⟨rfl, counted⟩
    exact List.count_eq_one_of_mem (nodup_map_fst_toList tally) (List.mem_map_of_mem member)

/-! ### Tallies made by counting and merging -/

/-- A tally is made from the empty one by counting keys and by merging with tallies so made. -/
inductive Made : Tally → Prop where
  /-- Nothing has been counted. -/
  | empty : Made ∅
  /-- One more key has been counted. -/
  | increment {tally : Tally} (made : Made tally) (category : Category) (key : String) :
      Made (tally.increment category key)
  /-- Another tally has been added. -/
  | merge {tally other : Tally} (made : Made tally) (madeOther : Made other) :
      Made (tally.merge other)

theorem Made.proper {tally : Tally} (made : tally.Made) : tally.Proper := by
  induction made with
  | empty => exact proper_empty
  | increment _ category key proper => exact proper.add ⟨category, key⟩ Nat.one_pos
  | merge _ _ proper properOther => exact proper.merge properOther

theorem Proper.countAll {tally : Tally} (proper : tally.Proper) (keys : List TallyKey) :
    (tally.countAll keys).Proper := by
  induction keys generalizing tally with
  | nil => exact proper
  | cons key rest ih => exact ih (proper.add key Nat.one_pos)

/-- Counting keys in another order gives the same tally. -/
theorem Proper.countAll_perm {tally : Tally} (proper : tally.Proper) {keys others : List TallyKey}
    (reordered : keys.Perm others) : tally.countAll keys = tally.countAll others := by
  refine (proper.countAll keys).eq_of_count_eq (proper.countAll others) fun category key => ?_
  rw [count_countAll, count_countAll, reordered.count_eq]

/-- Tallies made by counting and merging form a commutative monoid, and are determined by their
counts.  Merging adds counts and totals.  Counting keys in another order gives the same tally.  A
tally is empty when all totals are zero, and it lists every key with a count once, in order. -/
theorem tallies_form_commutative_monoid {first second third : Tally} (madeFirst : first.Made)
    (madeSecond : second.Made) (madeThird : third.Made) :
    (∀ category, (first.merge second).total category =
        first.total category + second.total category ∧
      ∀ key, (first.merge second).count category key =
        first.count category key + second.count category key) ∧
    (first.merge second).merge third = first.merge (second.merge third) ∧
    first.merge second = second.merge first ∧
    (first.merge ∅ = first ∧ (∅ : Tally).merge first = first) ∧
    (∀ keys others : List TallyKey, keys.Perm others →
      keys.foldl (fun tally key => tally.increment key.category key.key) first =
        others.foldl (fun tally key => tally.increment key.category key.key) first) ∧
    (first = second ↔ ∀ category key, first.count category key = second.count category key) ∧
    (first.isEmpty = true ↔ ∀ category, first.total category = 0) ∧
    first.toList.Pairwise (fun entry later => entry.1.Precedes later.1) ∧
    ∀ category key,
      (∀ number, (⟨category, key⟩, number) ∈ first.toList ↔
        first.count category key = number ∧ number ≠ 0) ∧
      (first.toList.map Prod.fst).count ⟨category, key⟩ =
        if first.count category key = 0 then 0 else 1 := by
  have properFirst := madeFirst.proper
  have properSecond := madeSecond.proper
  refine ⟨fun category => ?_, properFirst.merge_assoc properSecond madeThird.proper,
    properFirst.merge_comm properSecond, ⟨rfl, properFirst.empty_merge⟩,
    fun keys others reordered => properFirst.countAll_perm reordered, ?_,
    properFirst.isEmpty_iff, toList_pairwise_precedes first, fun category key => ?_⟩
  · exact ⟨properSecond.total_merge first category, count_merge first second category⟩
  · constructor
    · rintro rfl category key
      rfl
    · exact properFirst.eq_of_count_eq properSecond
  · exact ⟨fun _ => properFirst.mem_toList_iff, properFirst.count_map_fst_toList category key⟩

/-- One value that is no tensor. -/
def lengthTally : Tally :=
  (∅ : Tally).increment .nontensor "builtins.len"

/-- The same value, and an attribute that was read. -/
def shapeTally : Tally :=
  ((∅ : Tally).increment .nontensor "builtins.len").increment .attributeRead "shape"

theorem lengthTally_shapeTally_form_monoid :
    (lengthTally.merge shapeTally).count .nontensor "builtins.len" = 2 ∧
      lengthTally.merge shapeTally = shapeTally.merge lengthTally ∧
      (lengthTally.merge shapeTally).merge shapeTally =
        lengthTally.merge (shapeTally.merge shapeTally) ∧
      lengthTally ≠ shapeTally ∧
      (lengthTally.toList.map Prod.fst).count ⟨.nontensor, "builtins.len"⟩ = 1 := by
  have madeLength : lengthTally.Made := .increment .empty _ _
  have madeShape : shapeTally.Made := .increment (.increment .empty _ _) _ _
  obtain ⟨sums, assoc, comm, -, -, determined, -, -, listed⟩ :=
    tallies_form_commutative_monoid madeLength madeShape madeShape
  have counted : lengthTally.count .nontensor "builtins.len" = 1 := by decide +kernel
  refine ⟨?_, comm, assoc, fun same => ?_, ?_⟩
  · rw [(sums .nontensor).2, counted]
    decide +kernel
  · have read := determined.mp same .attributeRead "shape"
    revert read
    decide +kernel
  · rw [(listed .nontensor "builtins.len").2, counted]
    rfl

end Tally

end OpGraph
