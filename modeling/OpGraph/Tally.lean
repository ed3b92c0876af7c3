import OpGraph.Json.Value
import OpGraph.Text.Columns
import Std.Data.ExtTreeMap

/-!
# Tallies

A tally counts occurrences by category, and within a category by key.  Both levels are ordered
tables, and counting a key enters its category and the key where they are not listed yet.
-/

namespace OpGraph

/-- What an entry of a tally counts. -/
inductive Category where
  /-- Calls changed to reuse storage, by manner. -/
  | optimizations
  /-- Changes of a value that could not be removed. -/
  | mutation
  /-- Changes of an input of the graph. -/
  | inputMutation
  /-- Values that are no tensors. -/
  | nontensor
  /-- Attribute reads replaced by their recorded value. -/
  | resolvedRead
  /-- Other attribute reads. -/
  | attributeRead
  /-- Divisions left as they are because of a scalar operand. -/
  | unconvertedDivision
deriving DecidableEq, Repr

namespace Category

/-- The place of a category in the order of tallies. -/
def rank : Category → Nat
  | optimizations => 0
  | mutation => 1
  | inputMutation => 2
  | nontensor => 3
  | resolvedRead => 4
  | attributeRead => 5
  | unconvertedDivision => 6

/-- The word for a category. -/
def word : Category → String
  | optimizations => "optimizations"
  | mutation => "mutation"
  | inputMutation => "input_mutation"
  | nontensor => "nontensor"
  | resolvedRead => "resolved_getattr"
  | attributeRead => "getattr"
  | unconvertedDivision => "unconverted_division"

/-- All categories in their order. -/
def all : List Category :=
  [optimizations, mutation, inputMutation, nontensor, resolvedRead, attributeRead,
    unconvertedDivision]

theorem rank_injective {left right : Category} (equal : left.rank = right.rank) : left = right := by
  have placed : ∀ category : Category, all[category.rank]? = some category := by
    intro category
    cases category <;> rfl
  have same : some left = some right := by
    rw [← placed left, ← placed right, equal]
  exact Option.some.inj same

instance : Ord Category where
  compare := compareOn rank

instance : Std.TransOrd Category :=
  inferInstanceAs (Std.TransCmp (compareOn rank))

instance : Std.LawfulEqOrd Category where
  compare_self {category} := Std.ReflOrd.compare_self (a := category.rank)
  eq_of_compare {left right} equal :=
    have ranks : compare left.rank right.rank = .eq := equal
    rank_injective (Std.LawfulEqOrd.eq_of_compare ranks)

end Category

/-- What is counted: a key within a category. -/
@[ext]
structure TallyKey where
  /-- The category. -/
  category : Category
  /-- The key within the category. -/
  key : String
deriving DecidableEq, Repr

/-- Counts by category and, within a category, by key. -/
@[ext]
structure Tally where
  /-- The counts of the keys of every category. -/
  counts : Std.ExtTreeMap Category (Std.ExtTreeMap String Nat) := ∅
deriving DecidableEq

instance : EmptyCollection Tally where
  emptyCollection := {}

namespace Tally

/-- The count of a key that is listed. -/
def find? (tally : Tally) (entry : TallyKey) : Option Nat :=
  tally.counts[entry.category]?.bind (·[entry.key]?)

/-- The count of a key. -/
def count (tally : Tally) (category : Category) (key : String) : Nat :=
  (tally.find? ⟨category, key⟩).getD 0

/-- The counts of the keys of a category. -/
def keysOf (tally : Tally) (category : Category) : Std.ExtTreeMap String Nat :=
  tally.counts.getD category ∅

/-- Count several occurrences of a key. -/
def add (tally : Tally) (entry : TallyKey) (occurrences : Nat) : Tally :=
  let keys := tally.keysOf entry.category
  let counted := keys.insert entry.key (keys.getD entry.key 0 + occurrences)
  { counts := tally.counts.insert entry.category counted }

/-- Count one occurrence of a key. -/
def increment (tally : Tally) (category : Category) (key : String) : Tally :=
  tally.add ⟨category, key⟩ 1

theorem getElem?_keysOf (tally : Tally) (entry : TallyKey) :
    (tally.keysOf entry.category)[entry.key]? = tally.find? entry := by
  rw [keysOf, find?, Std.ExtTreeMap.getD_eq_getD_getElem?]
  cases tally.counts[entry.category]? with
  | none => exact Std.ExtTreeMap.getElem?_empty
  | some keys => rfl

theorem getD_keysOf (tally : Tally) (category : Category) (key : String) :
    (tally.keysOf category).getD key 0 = tally.count category key := by
  rw [Std.ExtTreeMap.getD_eq_getD_getElem?, count, ← getElem?_keysOf]

theorem counts_add (tally : Tally) (entry : TallyKey) (occurrences : Nat) (category : Category) :
    (tally.add entry occurrences).counts[category]? =
      if entry.category = category then
        some ((tally.keysOf category).insert entry.key
          (tally.count category entry.key + occurrences))
      else tally.counts[category]? := by
  rw [add, Std.ExtTreeMap.getElem?_insert]
  by_cases same : entry.category = category
  · rw [same, if_pos Std.ReflOrd.compare_self, if_pos rfl, getD_keysOf]
  · rw [if_neg fun equal => same (Std.LawfulEqOrd.eq_of_compare equal), if_neg same]

theorem keysOf_add (tally : Tally) (entry : TallyKey) (occurrences : Nat) (category : Category) :
    (tally.add entry occurrences).keysOf category =
      if entry.category = category then
        (tally.keysOf category).insert entry.key (tally.count category entry.key + occurrences)
      else tally.keysOf category := by
  rw [keysOf, Std.ExtTreeMap.getD_eq_getD_getElem?, counts_add]
  split
  · rfl
  · rw [keysOf, Std.ExtTreeMap.getD_eq_getD_getElem?]

/-- Counting one key leaves all others as they were. -/
theorem find?_add (tally : Tally) (entry other : TallyKey) (occurrences : Nat) :
    (tally.add entry occurrences).find? other =
      if entry = other then some (tally.count other.category other.key + occurrences)
      else tally.find? other := by
  rw [← getElem?_keysOf, keysOf_add]
  by_cases sameCategory : entry.category = other.category
  · rw [if_pos sameCategory, Std.ExtTreeMap.getElem?_insert]
    by_cases sameKey : entry.key = other.key
    · rw [sameKey, if_pos Std.ReflOrd.compare_self, if_pos (TallyKey.ext sameCategory sameKey)]
    · rw [if_neg fun equal => sameKey (Std.LawfulEqOrd.eq_of_compare equal),
        if_neg fun same => sameKey (congrArg TallyKey.key same), getElem?_keysOf]
  · rw [if_neg sameCategory, if_neg fun same => sameCategory (congrArg TallyKey.category same),
      getElem?_keysOf]

/-- Counting one key leaves the counts of all others as they were. -/
theorem count_add (tally : Tally) (entry : TallyKey) (occurrences : Nat) (category : Category)
    (key : String) :
    (tally.add entry occurrences).count category key =
      tally.count category key + if entry = ⟨category, key⟩ then occurrences else 0 := by
  rw [count, find?_add]
  split <;> rfl

/-- The counts of a category by key, in ascending order of the keys. -/
def entriesOf (tally : Tally) (category : Category) : List (String × Nat) :=
  (tally.keysOf category).toList

/-- The sum of the counts of a category. -/
def total (tally : Tally) (category : Category) : Nat :=
  ((tally.entriesOf category).map Prod.snd).foldr (· + ·) 0

/-- No category is listed. -/
def isEmpty (tally : Tally) : Bool :=
  tally.counts.isEmpty

/-- All counts, by category and within a category by key, in ascending order. -/
def toList (tally : Tally) : List (TallyKey × Nat) :=
  tally.counts.toList.flatMap fun (category, keys) =>
    keys.toList.map fun (key, count) => (⟨category, key⟩, count)

/-- Add the counts of another tally. -/
def merge (tally other : Tally) : Tally :=
  other.toList.foldl (fun merged (entry, occurrences) => merged.add entry occurrences) tally

/-- One line for every entry: category, key in a column of forty characters, and count. -/
def listing (tally : Tally) : String :=
  String.join (tally.toList.map fun (entry, count) =>
    entry.category.word ++ " " ++ Text.padRight 40 entry.key ++ " " ++ toString count ++ "\n")

/-- The tally in exchange form: an object for every category that is listed. -/
def toJson (tally : Tally) : Json :=
  .object (tally.counts.toList.map fun (category, keys) =>
    (category.word,
      .object (keys.toList.map fun (key, count) => (key, .number (toString count)))))

/-- The text of a tally in exchange form. -/
def toText (tally : Tally) : String :=
  tally.toJson.toPrettyText

end Tally

end OpGraph
