import Mathlib.Algebra.BigOperators.Group.List.Basic
import Mathlib.Algebra.GroupWithZero.Nat
import OpGraph.Tally

/-!
# Counting in tallies

The total of a category is the sum of its entries.  Counting a key adds to the total of its category
and to no other.  The count of a key and the total of a category are measures of this kind
(`Tally.Measures`), and such a measure grows with a list of keys by the number of those that it
looks for.
-/

namespace OpGraph

namespace Tally

/-- Count one occurrence of every key of a list. -/
def countAll (tally : Tally) (keys : List TallyKey) : Tally :=
  keys.foldl (fun tally key => tally.add key 1) tally

/-! ### Tables of counts -/

/-- The sum of a table of counts. -/
def sum (keys : Std.ExtTreeMap String Nat) : Nat :=
  (keys.toList.map Prod.snd).sum

theorem total_eq_sum (tally : Tally) (category : Category) :
    tally.total category = sum (tally.keysOf category) := by
  rw [total, entriesOf, sum, List.sum_eq_foldr]

theorem nodup_toList_keys (keys : Std.ExtTreeMap String Nat) : keys.toList.Nodup := by
  refine Std.ExtTreeMap.distinct_keys_toList.imp fun apart same => apart ?_
  rw [same]
  exact Std.ReflOrd.compare_self

/-- The entries of a changed table are the changed one and all others. -/
theorem toList_insert_perm (keys : Std.ExtTreeMap String Nat) (key : String) (count : Nat) :
    (keys.insert key count).toList.Perm ((key, count) :: (keys.erase key).toList) := by
  have absent : (key, count) ∉ (keys.erase key).toList := by
    intro member
    have found := Std.ExtTreeMap.mem_toList_iff_getElem?_eq_some.mp member
    rw [Std.ExtTreeMap.getElem?_erase_self] at found
    cases found
  refine (List.perm_ext_iff_of_nodup (nodup_toList_keys _)
    (List.nodup_cons.mpr ⟨absent, nodup_toList_keys _⟩)).mpr ?_
  rintro ⟨other, value⟩
  rw [List.mem_cons, Std.ExtTreeMap.mem_toList_iff_getElem?_eq_some,
    Std.ExtTreeMap.mem_toList_iff_getElem?_eq_some, Std.ExtTreeMap.getElem?_insert,
    Std.ExtTreeMap.getElem?_erase]
  by_cases same : compare key other = .eq
  · obtain rfl := Std.LawfulEqOrd.eq_of_compare same
    simp [eq_comm]
  · have different : other ≠ key := by
      rintro rfl
      exact same Std.ReflOrd.compare_self
    simp [same, different]

theorem sum_insert (keys : Std.ExtTreeMap String Nat) (key : String) (count : Nat) :
    sum (keys.insert key count) = count + sum (keys.erase key) := by
  rw [sum, sum, ((toList_insert_perm keys key count).map _).sum_eq, List.map_cons, List.sum_cons]

/-- A sum splits into the count of one key and the rest. -/
theorem sum_split (keys : Std.ExtTreeMap String Nat) (key : String) :
    sum keys = keys.getD key 0 + sum (keys.erase key) := by
  rw [Std.ExtTreeMap.getD_eq_getD_getElem?]
  cases found : keys[key]? with
  | none =>
      have same : keys.erase key = keys := by
        refine Std.ExtTreeMap.ext_getElem? fun other => ?_
        rw [Std.ExtTreeMap.getElem?_erase]
        split
        · next equal => rw [← Std.LawfulEqOrd.eq_of_compare equal, found]
        · rfl
      rw [same, Option.getD_none, Nat.zero_add]
  | some count =>
      have same : keys.insert key count = keys := by
        refine Std.ExtTreeMap.ext_getElem? fun other => ?_
        rw [Std.ExtTreeMap.getElem?_insert]
        split
        · next equal => rw [← Std.LawfulEqOrd.eq_of_compare equal, found]
        · rfl
      rw [Option.getD_some, ← sum_insert, same]

/-! ### Counting keys -/

/-- Counting a key adds to the total of its category only. -/
theorem total_add (tally : Tally) (key : TallyKey) (occurrences : Nat) (category : Category) :
    (tally.add key occurrences).total category =
      tally.total category + if key.category = category then occurrences else 0 := by
  rw [total_eq_sum, total_eq_sum, keysOf_add]
  split
  · rw [sum_insert, sum_split (tally.keysOf category) key.key, getD_keysOf]
    omega
  · rfl

/-- Counting a key raises the measure by its occurrences, if the key is among those looked for. -/
def Measures (measure : Tally → Nat) (among : TallyKey → Prop) [DecidablePred among] : Prop :=
  ∀ tally key occurrences, measure (tally.add key occurrences) =
    measure tally + if among key then occurrences else 0

theorem measures_total (category : Category) :
    Measures (total · category) (·.category = category) :=
  fun tally key occurrences => total_add tally key occurrences category

theorem measures_count (category : Category) (key : String) :
    Measures (count · category key) (· = ⟨category, key⟩) :=
  fun tally other occurrences => count_add tally other occurrences category key

section Measure

variable {measure : Tally → Nat} {among : TallyKey → Prop} [DecidablePred among]

theorem Measures.foldl_add (measures : Measures measure among) (tally : Tally)
    (entries : List (TallyKey × Nat)) :
    measure (entries.foldl (fun merged entry => merged.add entry.1 entry.2) tally) =
      measure tally + (entries.map fun entry => if among entry.1 then entry.2 else 0).sum := by
  induction entries generalizing tally with
  | nil => rfl
  | cons entry rest ih =>
      rw [List.foldl_cons, ih, measures, List.map_cons, List.sum_cons, Nat.add_assoc]

theorem Measures.countAll (measures : Measures measure among) (tally : Tally)
    (keys : List TallyKey) :
    measure (tally.countAll keys) = measure tally + keys.countP fun key => among key := by
  induction keys generalizing tally with
  | nil => rfl
  | cons key rest ih =>
      rw [Tally.countAll, List.foldl_cons, ← Tally.countAll, ih, measures, List.countP_cons]
      by_cases isAmong : among key
      · simp only [isAmong, if_true, decide_true]
        omega
      · simp only [isAmong, if_false, decide_false, Bool.false_eq_true]
        omega

end Measure

/-- Counting keys adds the number of those of a category to its total. -/
theorem total_countAll (tally : Tally) (keys : List TallyKey) (category : Category) :
    (tally.countAll keys).total category =
      tally.total category + keys.countP fun key => key.category = category :=
  (measures_total category).countAll tally keys

/-- Counting keys adds to the count of a key the number of its occurrences. -/
theorem count_countAll (tally : Tally) (keys : List TallyKey) (category : Category)
    (key : String) :
    (tally.countAll keys).count category key =
      tally.count category key + keys.count ⟨category, key⟩ :=
  (measures_count category key).countAll tally keys

/-- A category without counted keys has no entries. -/
theorem entriesOf_countAll {tally : Tally} {keys : List TallyKey} {category : Category}
    (none : tally.entriesOf category = []) (others : ∀ key ∈ keys, key.category ≠ category) :
    (tally.countAll keys).entriesOf category = [] := by
  induction keys generalizing tally with
  | nil => exact none
  | cons key rest ih =>
      obtain ⟨here, later⟩ := List.forall_mem_cons.mp others
      refine ih ?_ later
      rw [entriesOf, keysOf_add, if_neg here]
      exact none

end Tally

end OpGraph
