import Mathlib.Data.List.Nodup
import OpGraph.Proofs.RulesExchange

/-!
# Rules that override the standard ones

A text of rules need not name every table.  A table that is named is replaced by the set or map that
is written there: repeated members of a set count once, and of the entries of a map with one key the
last one counts (`Content.Holds`).  The other tables stay as they are.  Since every table is
replaced by itself, neither the order of the entries matters nor what stands between them.
-/

namespace OpGraph.Rules

open Json (Blank Delimited Fault IsValue Listed Member Reader Spelled Takes)

/-! ### What a table holds -/

/-- The value that stands last at a key. -/
inductive LastAt (key value : String) : List (String × String) → Prop where
  | here {others : List (String × String)} (notLater : key ∉ others.map Prod.fst) :
      LastAt key value ((key, value) :: others)
  | later {entry : String × String} {others : List (String × String)}
      (isLater : LastAt key value others) : LastAt key value (entry :: others)

theorem lastAt_nil (key value : String) : ¬LastAt key value [] := nofun

theorem lastAt_cons {key value : String} {entry : String × String}
    {others : List (String × String)} : LastAt key value (entry :: others) ↔
      (entry = (key, value) ∧ key ∉ others.map Prod.fst) ∨ LastAt key value others := by
  constructor
  · intro isLast
    cases isLast with
    | here notLater => exact Or.inl ⟨rfl, notLater⟩
    | later isLater => exact Or.inr isLater
  · rintro (⟨rfl, notLater⟩ | isLater)
    · exact .here notLater
    · exact .later isLater

namespace Content

/-- The entries of a table, in ascending order, are those of the set or map that is written. -/
inductive Holds : Content → Content → Prop where
  | mapping {actual written : List (String × String)}
      (ascending : actual.Pairwise fun first second => compare first.1 second.1 = .lt)
      (same : ∀ key value, (key, value) ∈ actual ↔ LastAt key value written) :
      Holds (.mapping actual) (.mapping written)
  | members {actual written : List String}
      (ascending : actual.Pairwise fun first second => compare first second = .lt)
      (same : ∀ item, item ∈ actual ↔ item ∈ written) : Holds (.members actual) (.members written)

/-- Lists in ascending order are the same if they have the same members. -/
theorem eq_of_ascending {α : Type} {key : α → String} {first second : List α}
    (ascending : first.Pairwise fun one other => compare (key one) (key other) = .lt)
    (otherAscending : second.Pairwise fun one other => compare (key one) (key other) = .lt)
    (same : ∀ item, item ∈ first ↔ item ∈ second) : first = second := by
  have nodup : ∀ {items : List α},
      (items.Pairwise fun one other => compare (key one) (key other) = .lt) → items.Nodup := by
    intro items ascending
    refine ascending.imp fun less equal => ?_
    rw [equal, Std.ReflOrd.compare_self] at less
    cases less
  refine List.Perm.eq_of_pairwise ?_ ascending otherAscending
    ((List.perm_ext_iff_of_nodup (nodup ascending) (nodup otherAscending)).mpr same)
  intro one other _ _ less greater
  rw [Std.OrientedCmp.gt_of_lt less] at greater
  cases greater

/-- What is written determines what the table holds. -/
theorem Holds.unique {actual other written : Content} (first : actual.Holds written)
    (second : other.Holds written) : actual = other := by
  cases first with
  | mapping ascending same =>
      cases second with
      | mapping otherAscending otherSame =>
          refine congrArg Content.mapping (eq_of_ascending ascending otherAscending fun entry => ?_)
          exact (same entry.1 entry.2).trans (otherSame entry.1 entry.2).symm
  | members ascending same =>
      cases second with
      | members otherAscending otherSame =>
          refine congrArg Content.members
            (@eq_of_ascending _ id _ _ ascending otherAscending fun item => ?_)
          exact (same item).trans (otherSame item).symm

end Content

/-- Texts that name the elements of a type in their order. -/
structure Naming {κ : Type} [Ord κ] (ofName : String → κ) (toName : κ → String) : Prop where
  ofName_toName : Function.LeftInverse ofName toName
  toName_ofName : Function.LeftInverse toName ofName
  compare_toName : ∀ first second, compare (toName first) (toName second) = compare first second

theorem naming_id : Naming (id : String → String) id :=
  ⟨fun _ => rfl, fun _ => rfl, fun _ _ => rfl⟩

theorem naming_path : Naming FunctionPath.mk FunctionPath.path :=
  ⟨fun _ => rfl, fun _ => rfl, fun _ _ => rfl⟩

section Collections

variable {κ ν : Type} [Ord κ] [Std.TransOrd κ] [Std.LawfulEqOrd κ] [Ord ν]
variable {ofName : String → κ} {toName : κ → String} {ofValue : String → ν}
variable {toValue : ν → String}

/-- In a map that is made of entries, the last one at a key counts. -/
theorem getElem?_foldl_insert (names : Naming ofName toName) (values : Naming ofValue toValue)
    (entries : List (String × String)) (table : Std.ExtTreeMap κ ν) (key value : String) :
    (entries.foldl (fun table entry => table.insert (ofName entry.1) (ofValue entry.2))
      table)[ofName key]? = some (ofValue value) ↔
        LastAt key value entries ∨
          (key ∉ entries.map Prod.fst ∧ table[ofName key]? = some (ofValue value)) := by
  induction entries generalizing table with
  | nil => simp [lastAt_nil]
  | cons entry others ih =>
      obtain ⟨name, content⟩ := entry
      rw [List.foldl_cons, ih, Std.ExtTreeMap.getElem?_insert, lastAt_cons, List.map_cons,
        List.mem_cons]
      by_cases same : name = key
      · subst same
        have equal : content = value ↔ some (ofValue content) = some (ofValue value) := by
          rw [Option.some.injEq, values.toName_ofName.injective.eq_iff]
        rw [if_pos Std.ReflOrd.compare_self]
        simp only [Prod.mk.injEq, true_and, true_or, not_true_eq_false, false_and, or_false, equal]
        tauto
      · have apart : ¬compare (ofName name) (ofName key) = .eq := fun equal =>
          same (names.toName_ofName.injective (Std.LawfulEqOrd.eq_of_compare equal))
        rw [if_neg apart]
        simp only [Prod.mk.injEq, same, false_and, false_or, Ne.symm same]

/-- The map of some entries holds them. -/
theorem holds_mapping (names : Naming ofName toName) (values : Naming ofValue toValue)
    (entries : List (String × String)) :
    (Content.mapping ((Std.ExtTreeMap.ofList
      (entries.map fun entry => (ofName entry.1, ofValue entry.2))).toList.map
        fun entry => (toName entry.1, toValue entry.2))).Holds (.mapping entries) := by
  refine .mapping ?_ fun key value => ?_
  · rw [List.pairwise_map]
    refine Std.ExtTreeMap.ordered_keys_toList.imp fun less => ?_
    rw [names.compare_toName]
    exact less
  · have found := getElem?_foldl_insert names values entries ∅ key value
    rw [Std.ExtTreeMap.getElem?_empty] at found
    rw [Std.ExtTreeMap.ofList_eq_foldl, List.foldl_map]
    constructor
    · intro isNamed
      obtain ⟨⟨name, content⟩, isEntry, same⟩ := List.mem_map.mp isNamed
      obtain ⟨rfl, rfl⟩ := Prod.mk.inj same
      have isLast := Std.ExtTreeMap.mem_toList_iff_getElem?_eq_some.mp isEntry
      rw [names.ofName_toName, values.ofName_toName] at found
      exact (found.mp isLast).resolve_right fun absent => by cases absent.2
    · intro isLast
      refine List.mem_map.mpr ⟨(ofName key, ofValue value), ?_, ?_⟩
      · exact Std.ExtTreeMap.mem_toList_iff_getElem?_eq_some.mpr (found.mpr (Or.inl isLast))
      · rw [names.toName_ofName, values.toName_ofName]

/-- The set of some items holds them. -/
theorem holds_members [DecidableEq κ] (names : Naming ofName toName) (items : List String) :
    (Content.members ((Std.ExtTreeSet.ofList (items.map ofName)).toList.map toName)).Holds
      (.members items) := by
  refine .members ?_ fun item => ?_
  · rw [List.pairwise_map]
    refine Std.ExtTreeSet.ordered_toList.imp fun less => ?_
    rw [names.compare_toName]
    exact less
  · constructor
    · intro isNamed
      obtain ⟨element, isElement, rfl⟩ := List.mem_map.mp isNamed
      rw [Std.ExtTreeSet.mem_toList, Std.ExtTreeSet.mem_ofList, List.contains_iff_mem] at isElement
      obtain ⟨item, isItem, rfl⟩ := List.mem_map.mp isElement
      rw [names.toName_ofName]
      exact isItem
    · intro isItem
      refine List.mem_map.mpr ⟨ofName item, ?_, names.toName_ofName item⟩
      rw [Std.ExtTreeSet.mem_toList, Std.ExtTreeSet.mem_ofList, List.contains_iff_mem]
      exact List.mem_map_of_mem isItem

end Collections

/-! ### Tables -/

/-- Both are maps, or both are sets. -/
inductive Content.SameShape : Content → Content → Prop where
  | mapping (entries others : List (String × String)) :
      SameShape (.mapping entries) (.mapping others)
  | members (items others : List String) : SameShape (.members items) (.members others)

instance : (content other : Content) → Decidable (content.SameShape other)
  | .mapping entries, .mapping others => .isTrue (.mapping entries others)
  | .members items, .members others => .isTrue (.members items others)
  | .mapping _, .members _ => .isFalse nofun
  | .members _, .mapping _ => .isFalse nofun

/-- The contents of all tables. -/
def contents (rules : Rules) : List Content :=
  tables.map fun table => table.content rules

/-- Rules with the same contents are the same, since they have the same text. -/
theorem eq_of_contents {rules others : Rules}
    (same : ∀ table ∈ tables, table.content rules = table.content others) : rules = others := by
  have texts : (tables.map fun table => (table.key, (table.content rules).toJson)) =
      tables.map fun table => (table.key, (table.content others).toJson) :=
    List.map_congr_left fun table isTable => by rw [same table isTable]
  have read := @read_written rules (fun table => table.content rules) fun _ _ => .refl _
  rw [texts, read_written fun _ _ => .refl _] at read
  exact (Prod.mk.inj (Except.ok.inj read)).1.symm

namespace Table

/-- The text writes a table of the right kind. -/
def Gives (table : Table) (text : List Char) (content : Content) : Prop :=
  (table.content standard).SameShape content ∧ content.Written text

/-- From `rules` to `updated`, the table becomes the one that the text writes, and the other tables
stay as they are. -/
structure Replaced (table : Table) (text : List Char) (rules updated : Rules) : Prop where
  holds : ∀ content, table.Gives text content → (table.content updated).Holds content
  frame : ∀ other ∈ tables, other.key ≠ table.key → other.content updated = other.content rules

/-- The table is replaced by a value of the right kind, and no other value is accepted. -/
structure Replaces (table : Table) : Prop where
  accepts : ∀ {text content}, table.Gives text content → ∀ rules, ∃ updated,
    table.Replaced text rules updated ∧ ∀ {blanks : List Char}, Blank blanks →
      ∀ rest, table.replace rules (blanks ++ (text ++ rest)) = .ok (updated, rest)
  refuses : ∀ {text}, IsValue text → (∀ content, ¬table.Gives text content) →
    ∀ (rules : Rules) {blanks : List Char}, Blank blanks →
      ∀ rest, ∃ fault, table.replace rules (blanks ++ (text ++ rest)) = .error fault

/-- A new table changes no content but its own. -/
theorem content_of_set {table other : Table} {index : Nat} {rules updated : Rules}
    {content : Content} (here : tables[index]? = some table) (isTable : other ∈ tables)
    (apart : other.key ≠ table.key)
    (set : contents updated = (contents rules).set index content) :
    other.content updated = other.content rules := by
  obtain ⟨place, found⟩ := List.mem_iff_getElem?.mp isTable
  have places : index ≠ place := by
    rintro rfl
    rw [here] at found
    exact apart (congrArg key (Option.some.inj found)).symm
  have same := congrArg (fun list => list[place]?) set
  simp only [List.getElem?_set_ne places] at same
  rw [contents, contents, List.getElem?_map, List.getElem?_map, found] at same
  exact Option.some.inj same

/-- It is enough that a reader makes the new table, and that only this table is set. -/
theorem replaces_of_reader {τ : Type} {table : Table} (index : Nat)
    (here : tables[index]? = some table) {reader : Reader τ} {set : Rules → τ → Rules}
    (replace_eq : ∀ rules text, table.replace rules text =
      (reader text >>= fun taken => .ok (set rules taken.1, taken.2)))
    (contents_set : ∀ rules new, ∃ content,
      contents (set rules new) = (contents rules).set index content)
    (reads : ∀ {text content}, table.Gives text content → ∃ new,
      (∀ rules, (table.content (set rules new)).Holds content) ∧
        ∀ {blanks : List Char}, Blank blanks →
          ∀ rest, reader (blanks ++ (text ++ rest)) = .ok (new, rest))
    (refuses : ∀ {text}, IsValue text → (∀ content, ¬table.Gives text content) →
      ∀ {blanks : List Char}, Blank blanks →
        ∀ rest, ∃ fault, reader (blanks ++ (text ++ rest)) = .error fault) :
    table.Replaces where
  accepts := by
    intro text content gives rules
    obtain ⟨new, -, read⟩ := reads gives
    refine ⟨set rules new, ⟨fun other otherGives => ?_, fun other isTable apart => ?_⟩, ?_⟩
    · -- however the text is taken apart, the reader makes the same table of it
      obtain ⟨otherNew, holds, otherRead⟩ := reads otherGives
      have same := (otherRead Json.blank_nil []).symm.trans (read Json.blank_nil [])
      rw [← (Prod.mk.inj (Except.ok.inj same)).1]
      exact holds rules
    · obtain ⟨content, same⟩ := contents_set rules new
      exact content_of_set here isTable apart same
    · intro blanks blank rest
      rw [replace_eq, read blank rest]
      rfl
  refuses := by
    intro text isValue misfit rules blanks blank rest
    obtain ⟨fault, failed⟩ := refuses isValue misfit blank rest
    rw [replace_eq, failed]
    exact ⟨fault, rfl⟩

section Kinds

variable {κ ν : Type} [Ord κ] [Std.TransOrd κ] [Std.LawfulEqOrd κ] [Ord ν] {key : String}
variable {ofName : String → κ} {toName : κ → String} {ofValue : String → ν} {toValue : ν → String}

theorem replaces_ofMap (index : Nat) (names : Naming ofName toName)
    (values : Naming ofValue toValue) {get : Rules → Std.ExtTreeMap κ ν}
    {set : Rules → Std.ExtTreeMap κ ν → Rules}
    (here : tables[index]? = some (ofMap key ofName toName ofValue toValue get set))
    (get_set : ∀ rules table, get (set rules table) = table)
    (contents_set : ∀ rules new, ∃ content,
      contents (set rules new) = (contents rules).set index content) :
    (ofMap key ofName toName ofValue toValue get set).Replaces := by
  refine replaces_of_reader index here (fun _ _ => rfl) contents_set ?_ ?_
  · rintro text _ ⟨⟨_, entries⟩, written⟩
    refine ⟨.ofList (entries.map fun entry => (ofName entry.1, ofValue entry.2)), fun rules => ?_,
      readMapping_written ofName ofValue written⟩
    show (Content.mapping ((get (set rules _)).toList.map _)).Holds _
    rw [get_set]
    exact holds_mapping names values entries
  · intro text isValue misfit
    exact readMapping_refused ofName ofValue isValue
      fun entries written => misfit _ ⟨.mapping _ _, written⟩

theorem replaces_ofSet [DecidableEq κ] (index : Nat) (names : Naming ofName toName)
    {get : Rules → Std.ExtTreeSet κ} {set : Rules → Std.ExtTreeSet κ → Rules}
    (here : tables[index]? = some (ofSet key ofName toName get set))
    (get_set : ∀ rules table, get (set rules table) = table)
    (contents_set : ∀ rules new, ∃ content,
      contents (set rules new) = (contents rules).set index content) :
    (ofSet key ofName toName get set).Replaces := by
  refine replaces_of_reader index here (fun _ _ => rfl) contents_set ?_ ?_
  · rintro text _ ⟨⟨_, _⟩ | ⟨_, items⟩, written⟩
    refine ⟨.ofList (items.map ofName), fun rules => ?_, readMembers_written ofName written⟩
    show (Content.members ((get (set rules _)).toList.map _)).Holds _
    rw [get_set]
    exact holds_members names items
  · intro text isValue misfit
    exact readMembers_refused ofName isValue fun items written => misfit _ ⟨.members _ _, written⟩

end Kinds

end Table

theorem replaces_of_mem : ∀ table ∈ tables, table.Replaces := by
  simp only [tables, List.forall_mem_cons]
  exact ⟨
    Table.replaces_ofMap 0 naming_id naming_path rfl (fun _ _ => rfl) fun _ _ => ⟨_, rfl⟩,
    Table.replaces_ofMap 1 naming_path naming_path rfl (fun _ _ => rfl) fun _ _ => ⟨_, rfl⟩,
    Table.replaces_ofSet 2 naming_id rfl (fun _ _ => rfl) fun _ _ => ⟨_, rfl⟩,
    Table.replaces_ofSet 3 naming_id rfl (fun _ _ => rfl) fun _ _ => ⟨_, rfl⟩,
    Table.replaces_ofSet 4 naming_id rfl (fun _ _ => rfl) fun _ _ => ⟨_, rfl⟩,
    Table.replaces_ofSet 5 naming_path rfl (fun _ _ => rfl) fun _ _ => ⟨_, rfl⟩,
    Table.replaces_ofSet 6 naming_id rfl (fun _ _ => rfl) fun _ _ => ⟨_, rfl⟩,
    Table.replaces_ofSet 7 naming_path rfl (fun _ _ => rfl) fun _ _ => ⟨_, rfl⟩,
    Table.replaces_ofMap 8 naming_path naming_path rfl (fun _ _ => rfl) fun _ _ => ⟨_, rfl⟩,
    Table.replaces_ofMap 9 naming_path naming_path rfl (fun _ _ => rfl) fun _ _ => ⟨_, rfl⟩,
    Table.replaces_ofMap 10 naming_path naming_path rfl (fun _ _ => rfl) fun _ _ => ⟨_, rfl⟩,
    Table.replaces_ofSet 11 naming_path rfl (fun _ _ => rfl) fun _ _ => ⟨_, rfl⟩,
    Table.replaces_ofMap 12 naming_path naming_id rfl (fun _ _ => rfl) fun _ _ => ⟨_, rfl⟩,
    nofun⟩

/-! ### Entries -/

/-- An entry of the rules: its name as it is spelled, and any value. -/
structure Entry extends Member where
  /-- The name. -/
  name : String
  spelled : Spelled true name.toList key
  isValue : IsValue value

/-- The text of an object with the given entries, with blanks around it. -/
def IsObject (entries : List Entry) (text : String) : Prop :=
  ∃ before body after, Blank before ∧ Blank after ∧
    Listed (entries.map fun entry => '"' :: entry.body) body ∧
    text.toList = before ++ '\x7b' :: (body ++ '\x7d' :: after)

/-- The names of tables among those of the entries. -/
def tableNames (entries : List Entry) : List String :=
  (entries.map Entry.name).filter (· ∈ tables.map Table.key)

/-- Every table that is named has a value of the right kind. -/
def Typed (entries : List Entry) : Prop :=
  ∀ entry ∈ entries, ∀ table ∈ tables, entry.name = table.key →
    ∃ content, table.Gives entry.value content

/-- No table is named twice, and every table has a value of the right kind. -/
structure Fits (entries : List Entry) : Prop where
  distinct : (tableNames entries).Nodup
  typed : Typed entries

/-- An entry writes the content of the table. -/
def Names (entries : List Entry) (table : Table) (content : Content) : Prop :=
  ∃ entry ∈ entries, entry.name = table.key ∧ table.Gives entry.value content

theorem find?_of_mem {table : Table} (isTable : table ∈ tables) :
    (tables.find? fun other => other.key = table.key) = some table := by
  obtain ⟨before, after, split⟩ := List.append_of_mem isTable
  exact find?_key split

theorem eq_of_key {table other : Table} (isTable : table ∈ tables) (isOther : other ∈ tables)
    (same : other.key = table.key) : other = table := by
  have found := find?_of_mem isOther
  rw [same, find?_of_mem isTable] at found
  exact (Option.some.inj found).symm

theorem find?_of_unknown {name : String} (unknown : name ∉ tables.map Table.key) :
    (tables.find? fun table => table.key = name) = none := by
  refine List.find?_eq_none.mpr fun table isTable same => unknown ?_
  rw [← of_decide_eq_true same]
  exact List.mem_map_of_mem isTable

section Entries

variable {draft : Draft} {entry : Entry}

/-- An entry with another name than those of the tables is skipped. -/
theorem readEntry_unknown (unknown : entry.name ∉ tables.map Table.key) {rest : List Char}
    (delimited : Delimited rest) : readEntry draft (entry.body ++ rest) = .ok (draft, rest) := by
  rw [Member.body_append]
  refine Outcome.bind_eq_ok.mpr ⟨_, Json.readKey_append entry.spelled _, ?_⟩
  simp only [find?_of_unknown unknown]
  exact Outcome.bind_eq_ok.mpr ⟨_, Json.colon_append entry.blankBefore _,
    Outcome.bind_eq_ok.mpr ⟨_, Json.skipValue_append entry.isValue entry.blankBetween delimited,
      rfl⟩⟩

variable {table : Table} (isTable : table ∈ tables) (named : entry.name = table.key)
include isTable named

/-- The entry of a table is accepted once, if its value is. -/
theorem readEntry_table {updated : Rules} {rest : List Char}
    (unseen : table.key ∉ draft.present) (replaced : table.replace draft.rules
      (entry.between ++ (entry.value ++ rest)) = .ok (updated, rest)) :
    readEntry draft (entry.body ++ rest) = .ok (⟨updated, table.key :: draft.present⟩, rest) := by
  have absent : draft.present.contains table.key = false := by simpa using unseen
  rw [Member.body_append]
  refine Outcome.bind_eq_ok.mpr ⟨_, Json.readKey_append entry.spelled _, ?_⟩
  simp only [named, find?_of_mem isTable, absent]
  exact Outcome.bind_eq_ok.mpr ⟨_, Json.colon_append entry.blankBefore _,
    Outcome.bind_eq_ok.mpr ⟨_, replaced, rfl⟩⟩

theorem readEntry_repeated (seen : table.key ∈ draft.present) (rest : List Char) :
    ∃ fault, readEntry draft (entry.body ++ rest) = .error fault := by
  have present : draft.present.contains table.key = true := by simpa using seen
  rw [Member.body_append]
  refine ⟨.mismatch, Outcome.bind_eq_error.mpr
    (Or.inr ⟨_, Json.readKey_append entry.spelled _, ?_⟩)⟩
  simp only [named, find?_of_mem isTable, present]
  rfl

theorem readEntry_refused {rest : List Char} (refused : ∃ fault, table.replace draft.rules
      (entry.between ++ (entry.value ++ rest)) = .error fault) :
    ∃ fault, readEntry draft (entry.body ++ rest) = .error fault := by
  by_cases seen : table.key ∈ draft.present
  · exact readEntry_repeated isTable named seen rest
  · obtain ⟨fault, failed⟩ := refused
    have absent : draft.present.contains table.key = false := by simpa using seen
    rw [Member.body_append]
    refine ⟨fault, Outcome.bind_eq_error.mpr
      (Or.inr ⟨_, Json.readKey_append entry.spelled _, ?_⟩)⟩
    simp only [named, find?_of_mem isTable, absent]
    exact Outcome.bind_eq_error.mpr (Or.inr ⟨_, Json.colon_append entry.blankBefore _,
      Outcome.bind_eq_error.mpr (Or.inl failed)⟩)

end Entries

/-! ### Runs over the entries -/

theorem tableNames_cons (entry : Entry) (entries : List Entry) : tableNames (entry :: entries) =
    if entry.name ∈ tables.map Table.key then entry.name :: tableNames entries
    else tableNames entries := by
  simp only [tableNames, List.map_cons, List.filter_cons, decide_eq_true_eq]

/-- From `rules` to `final`, the tables that are named become what is written, and the others stay
as they are. -/
structure Overridden (entries : List Entry) (rules final : Rules) : Prop where
  holds : ∀ table ∈ tables, ∀ content, Names entries table content →
    (table.content final).Holds content
  frame : ∀ table ∈ tables, table.key ∉ entries.map Entry.name →
    table.content final = table.content rules

namespace Overridden

variable {entry : Entry} {entries : List Entry} {rules updated final : Rules}

theorem nil (rules : Rules) : Overridden [] rules rules where
  holds := by
    rintro table _ content ⟨entry, isEntry, -⟩
    exact absurd isEntry List.not_mem_nil
  frame _ _ _ := rfl

theorem cons_unknown (unknown : entry.name ∉ tables.map Table.key)
    (overridden : Overridden entries rules final) : Overridden (entry :: entries) rules final where
  holds := by
    rintro table isTable content ⟨other, isEntry, named, gives⟩
    rcases List.mem_cons.mp isEntry with rfl | isLater
    · exact absurd (named ▸ List.mem_map_of_mem isTable) unknown
    · exact overridden.holds table isTable content ⟨other, isLater, named, gives⟩
  frame table isTable absent :=
    overridden.frame table isTable fun isNamed => absent (List.mem_cons_of_mem _ isNamed)

/-- A table that does not occur again keeps the value that it got. -/
theorem cons_table {table : Table} (isTable : table ∈ tables) (named : entry.name = table.key)
    (replaced : table.Replaced entry.value rules updated)
    (unnamed : table.key ∉ entries.map Entry.name)
    (overridden : Overridden entries updated final) :
    Overridden (entry :: entries) rules final where
  holds := by
    rintro other isOther content ⟨place, isEntry, otherNamed, gives⟩
    rcases List.mem_cons.mp isEntry with rfl | isLater
    · obtain rfl := eq_of_key isTable isOther (otherNamed.symm.trans named)
      rw [overridden.frame other isOther unnamed]
      exact replaced.holds content gives
    · exact overridden.holds other isOther content ⟨place, isLater, otherNamed, gives⟩
  frame other isOther absent := by
    rw [List.map_cons, List.mem_cons, not_or, named] at absent
    rw [overridden.frame other isOther absent.2, replaced.frame other isOther absent.1]

end Overridden

/-- Entries that fit are taken one after the other. -/
theorem takes_entries {entries : List Entry} {draft : Draft}
    (distinct : (draft.present ++ tableNames entries).Nodup) (typed : Typed entries) :
    ∃ final, Takes readEntry draft (entries.map fun entry => entry.body) (some final) ∧
      Overridden entries draft.rules final.rules := by
  induction entries generalizing draft with
  | nil => exact ⟨draft, .nil draft, .nil draft.rules⟩
  | cons entry entries ih =>
      obtain ⟨here, later⟩ := List.forall_mem_cons.mp typed
      rw [tableNames_cons] at distinct
      by_cases known : entry.name ∈ tables.map Table.key
      · obtain ⟨table, isTable, named⟩ := List.mem_map.mp known
        rw [if_pos known, List.nodup_middle, ← List.cons_append, ← named] at distinct
        have fresh := (List.nodup_cons.mp distinct).1
        have unseen : table.key ∉ draft.present := fun seen => fresh (List.mem_append_left _ seen)
        have unnamed : table.key ∉ entries.map Entry.name := fun isNamed =>
          fresh (List.mem_append_right _ (List.mem_filter.mpr
            ⟨isNamed, decide_eq_true (List.mem_map_of_mem isTable)⟩))
        obtain ⟨content, gives⟩ := here table isTable named.symm
        obtain ⟨updated, replaced, replace⟩ :=
          (replaces_of_mem table isTable).accepts gives draft.rules
        obtain ⟨final, takes, overridden⟩ :=
          @ih ⟨updated, table.key :: draft.present⟩ distinct later
        refine ⟨final, .cons (fun rest _ => ?_) takes,
          .cons_table isTable named.symm replaced unnamed overridden⟩
        exact readEntry_table isTable named.symm unseen (replace entry.blankBetween rest)
      · rw [if_neg known] at distinct
        obtain ⟨final, takes, overridden⟩ := ih distinct later
        exact ⟨final, .cons (fun _ => readEntry_unknown known) takes,
          .cons_unknown known overridden⟩

/-- Other entries are refused at one of them. -/
theorem takes_misfit {entries : List Entry} {draft : Draft} (present : draft.present.Nodup)
    (misfit : ¬((draft.present ++ tableNames entries).Nodup ∧ Typed entries)) :
    Takes readEntry draft (entries.map fun entry => entry.body) none := by
  induction entries generalizing draft with
  | nil =>
      refine absurd ⟨?_, fun _ isEntry => absurd isEntry List.not_mem_nil⟩ misfit
      rw [tableNames, List.map_nil, List.filter_nil, List.append_nil]
      exact present
  | cons entry entries ih =>
      rw [tableNames_cons, Typed, List.forall_mem_cons] at misfit
      by_cases known : entry.name ∈ tables.map Table.key
      · obtain ⟨table, isTable, named⟩ := List.mem_map.mp known
        by_cases seen : table.key ∈ draft.present
        · exact .fail fun rest _ => readEntry_repeated isTable named.symm seen rest
        · by_cases typed : ∃ content, table.Gives entry.value content
          · obtain ⟨content, gives⟩ := typed
            obtain ⟨updated, -, replace⟩ :=
              (replaces_of_mem table isTable).accepts gives draft.rules
            refine .cons (fun rest _ => readEntry_table isTable named.symm seen
              (replace entry.blankBetween rest)) (ih (List.nodup_cons.mpr ⟨seen, present⟩) ?_)
            rintro ⟨distinct, later⟩
            refine misfit ⟨?_, fun other isOther otherNamed => ?_, later⟩
            · rw [if_pos known, List.nodup_middle, ← List.cons_append, ← named]
              exact distinct
            · obtain rfl := eq_of_key isTable isOther (otherNamed.symm.trans named.symm)
              exact ⟨content, gives⟩
          · refine .fail fun rest _ => readEntry_refused isTable named.symm ?_
            exact (replaces_of_mem table isTable).refuses entry.isValue
              (fun content gives => typed ⟨content, gives⟩) draft.rules entry.blankBetween rest
      · refine .cons (fun _ => readEntry_unknown known) (ih present ?_)
        rintro ⟨distinct, later⟩
        refine misfit ⟨?_, fun table isTable named => ?_, later⟩
        · rw [if_neg known]
          exact distinct
        · exact absurd (named ▸ List.mem_map_of_mem isTable) known

/-! ### Rules -/

/-- The rules of an object are those after its entries. -/
theorem toOption_ofText {entries : List Entry} {text : String} {result : Option Draft}
    (object : IsObject entries text)
    (takes : Takes readEntry ⟨standard, []⟩ (entries.map fun entry => entry.body) result) :
    (ofText text).toOption = result.map Draft.rules := by
  obtain ⟨before, body, after, blankBefore, blankAfter, listed, written⟩ := object
  have texts : entries.map (fun entry => '"' :: entry.body) =
      (entries.map fun entry => entry.body).map ('"' :: ·) := by
    rw [List.map_map]
    rfl
  rw [texts] at listed
  have taken := Json.toOption_entries takes listed after
  have opened : read text.toList = (Json.entries readEntry ⟨standard, []⟩ (body ++ '\x7d' :: after)
      >>= fun taken => .ok (taken.1.rules, taken.2)) := by
    rw [written, read, Json.skipBlanks_append_cons blankBefore rfl]
    rfl
  cases result with
  | some final =>
      have read : read text.toList = .ok (final.rules, after) := by
        rw [opened, Json.eq_ok_of_toOption taken]
        rfl
      rw [ofText, Json.readWhole_of_read read blankAfter]
      rfl
  | none =>
      obtain ⟨fault, failed⟩ := Json.exists_error_of_toOption taken
      rw [ofText, Json.readWhole, opened, failed]
      rfl

theorem load_object {entries : List Entry} {text : String} (object : IsObject entries text)
    (fits : Fits entries) : ∃ rules, load (.text text) = .ok rules ∧
      Overridden entries standard rules := by
  obtain ⟨final, takes, overridden⟩ :=
    @takes_entries entries ⟨standard, []⟩ fits.distinct fits.typed
  refine ⟨final.rules, ?_, overridden⟩
  rw [load, Json.eq_ok_of_toOption (toOption_ofText object takes)]
  rfl

/-- Rules that override the same rules in the same way are the same. -/
theorem Overridden.unique {entries others : List Entry} {rules first second : Rules}
    (typed : Typed entries) (othersTyped : Typed others)
    (same : ∀ table ∈ tables, ∀ content, Names entries table content ↔ Names others table content)
    (overridden : Overridden entries rules first)
    (otherOverridden : Overridden others rules second) : first = second := by
  have named : ∀ {entries : List Entry}, Typed entries → ∀ table ∈ tables,
      table.key ∈ entries.map Entry.name → ∃ content, Names entries table content := by
    intro entries typed table isTable isNamed
    obtain ⟨entry, isEntry, named⟩ := List.mem_map.mp isNamed
    obtain ⟨content, gives⟩ := typed entry isEntry table isTable named
    exact ⟨content, entry, isEntry, named, gives⟩
  refine eq_of_contents fun table isTable => ?_
  by_cases some : ∃ content, Names entries table content
  · obtain ⟨content, names⟩ := some
    exact (overridden.holds table isTable content names).unique
      (otherOverridden.holds table isTable content ((same table isTable content).mp names))
  · have absent := fun isNamed => some (named typed table isTable isNamed)
    have otherAbsent : table.key ∉ others.map Entry.name := by
      intro isNamed
      obtain ⟨content, names⟩ := named othersTyped table isTable isNamed
      exact some ⟨content, (same table isTable content).mpr names⟩
    rw [overridden.frame table isTable absent, otherOverridden.frame table isTable otherAbsent]

/-- The text of an object whose tables are of the right kind and occur once is accepted, whatever
other entries it has: the tables that are named become what is written there, the others stay the
standard ones, and any such text that names the same tables, in whatever order and among whatever
other entries, gives the same rules.  If a table occurs twice or is of another kind, the text is
invalid. -/
theorem rules_override_table_by_table (entries : List Entry) (text : String)
    (object : IsObject entries text) :
    (Fits entries → ∃ rules, load (.text text) = .ok rules ∧
      (∀ table ∈ tables, ∀ content, Names entries table content →
        (table.content rules).Holds content) ∧
      (∀ table ∈ tables, table.key ∉ entries.map Entry.name →
        table.content rules = table.content standard) ∧
      ∀ others otherText, IsObject others otherText → Fits others →
        (∀ table ∈ tables, ∀ content,
          Names entries table content ↔ Names others table content) →
        load (.text otherText) = .ok rules) ∧
    (¬Fits entries → ∃ fault, load (.text text) = .error (.invalid fault)) := by
  constructor
  · intro fits
    obtain ⟨rules, loaded, overridden⟩ := load_object object fits
    refine ⟨rules, loaded, overridden.holds, overridden.frame, ?_⟩
    intro others otherText otherObject otherFits same
    obtain ⟨otherRules, otherLoaded, otherOverridden⟩ := load_object otherObject otherFits
    rw [otherLoaded, overridden.unique fits.typed otherFits.typed same otherOverridden]
  · intro misfit
    have takes := @takes_misfit entries ⟨standard, []⟩ List.nodup_nil
      fun fits => misfit ⟨fits.1, fits.2⟩
    obtain ⟨fault, failed⟩ := Json.exists_error_of_toOption (toOption_ofText object takes)
    refine ⟨fault, ?_⟩
    rw [load, failed]
    rfl

/-- A text of an object with the given entries, one on a line. -/
def objectText (entries : List Entry) : String :=
  String.ofList ('\x7b' :: (Json.lines 1 (entries.map fun entry => '"' :: entry.body) ++
    Json.newLine 0 ++ ['\x7d']))

theorem isObject_objectText (entries : List Entry) : IsObject entries (objectText entries) :=
  ⟨[], _, [], Json.blank_nil, Json.blank_nil,
    Json.listed_lines 1 (Json.blank_newLine 0) _, String.toList_ofList⟩

/-- An entry with the text of a table. -/
def tableEntry (name : String) (content : Content) : Entry where
  key := name.toList.flatMap Json.escape
  before := []
  between := [' ']
  value := content.toJson.pretty 1
  blankBefore := Json.blank_nil
  blankBetween := Json.blank_space
  name
  spelled := Json.spelled_flatMap_escape name.toList
  isValue := (content.written_pretty 1).isValue

/-- A member whose value is a number with all its parts. -/
def depthMember : Member :=
  ⟨"depth".toList.flatMap Json.escape, [' '], [], ['-', '1', '.', '5', 'e', '3'],
    Json.blank_space, Json.blank_nil⟩

/-- An entry that is no table: a list with an object and a word. -/
def noteEntry : Entry where
  key := "note".toList.flatMap Json.escape
  before := []
  between := []
  value := '[' :: (Json.lines 2
    ['\x7b' :: (Json.lines 3 ['"' :: depthMember.body] ++ Json.newLine 2 ++ ['\x7d']),
      ['n', 'u', 'l', 'l']] ++ Json.newLine 1 ++ [']'])
  blankBefore := Json.blank_nil
  blankBetween := Json.blank_nil
  name := "note"
  spelled := Json.spelled_flatMap_escape _
  isValue := by
    have digit : ∀ character ∈ ['1', '3', '5'], Json.Digits [character] := by simp [Json.Digits]
    have number : Json.IsNumber depthMember.value :=
      .negative (@Json.Magnitude.mk ['1'] ['.', '5'] ['e', '3'] (digit '1' (by simp)) (by simp)
        (.some (digit '5' (by simp)))
        (@Json.Power.some 'e' [] ['3'] (by simp) (by simp) (digit '3' (by simp))))
    have key : ∃ characters, Spelled false characters depthMember.key :=
      (Json.spelled_flatMap_escape "depth".toList).loose
    have object := @IsValue.object [depthMember] _ (Json.listed_lines 3 (Json.blank_newLine 2) _)
      (by simpa using key) (by simpa using .number number)
    refine .list (Json.listed_lines 2 (Json.blank_newLine 1) _) ?_
    simpa using ⟨object, .word (by decide)⟩

/-- A set with a repeated member. -/
def viewEntry : Entry :=
  tableEntry "view_ops" (.members ["b", "a", "b"])

/-- A map with a repeated key. -/
def displayEntry : Entry :=
  tableEntry "display_names" (.mapping [("relu", "x"), ("relu", "y")])

/-- Two tables and an entry that is none. -/
def mixedEntries : List Entry :=
  [noteEntry, viewEntry, displayEntry]

theorem kinds_mixedEntries : ∀ table ∈ tables, "note" ≠ table.key ∧
    ("view_ops" = table.key → (table.content standard).SameShape (.members ["b", "a", "b"])) ∧
    ("display_names" = table.key →
      (table.content standard).SameShape (.mapping [("relu", "x"), ("relu", "y")])) := by
  decide +kernel

theorem typed_mixedEntries : Typed mixedEntries := by
  simp only [Typed, mixedEntries, List.forall_mem_cons]
  refine ⟨fun table isTable named => ?_, fun table isTable named => ?_,
    fun table isTable named => ?_, nofun⟩
  · exact absurd named (kinds_mixedEntries table isTable).1
  · exact ⟨_, (kinds_mixedEntries table isTable).2.1 named, Content.written_pretty _ 1⟩
  · exact ⟨_, (kinds_mixedEntries table isTable).2.2 named, Content.written_pretty _ 1⟩

/-- The set has each member once, the map has the last entry at the key, and another table is the
standard one.  The same rules come from the tables alone in the other order, and a table that is
repeated is refused. -/
theorem mixedEntries_override_tables :
    (∃ rules, load (.text (objectText mixedEntries)) = .ok rules ∧
      (∀ table ∈ tables,
        (table.key = "view_ops" → table.content rules = .members ["a", "b"]) ∧
        (table.key = "display_names" → table.content rules = .mapping [("relu", "y")]) ∧
        (table.key = "inplace_ops" → table.content rules = table.content standard)) ∧
      load (.text (objectText [displayEntry, viewEntry])) = .ok rules) ∧
    ∃ fault, load (.text (objectText [viewEntry, viewEntry])) = .error (.invalid fault) := by
  have sublist : ∀ entry ∈ [displayEntry, viewEntry], entry ∈ mixedEntries := by
    intro entry isEntry
    rcases List.mem_pair.mp isEntry with rfl | rfl
    · exact List.mem_cons_of_mem _ (List.mem_cons_of_mem _ List.mem_cons_self)
    · exact List.mem_cons_of_mem _ List.mem_cons_self
  constructor
  · have fits : Fits mixedEntries := ⟨by decide +kernel, typed_mixedEntries⟩
    have otherFits : Fits [displayEntry, viewEntry] :=
      ⟨by decide +kernel, fun entry isEntry => typed_mixedEntries entry (sublist entry isEntry)⟩
    obtain ⟨rules, loaded, holds, frame, unique⟩ :=
      (rules_override_table_by_table _ _ (isObject_objectText _)).1 fits
    refine ⟨rules, loaded, fun table isTable => ⟨fun named => ?_, fun named => ?_, fun named => ?_⟩,
      unique _ _ (isObject_objectText _) otherFits fun table isTable content => ⟨?_, ?_⟩⟩
    · have written := holds table isTable (.members ["b", "a", "b"])
        ⟨viewEntry, sublist _ (by simp), named.symm,
          (kinds_mixedEntries table isTable).2.1 named.symm, Content.written_pretty _ 1⟩
      exact written.unique (.members (by decide) (by simp))
    · have written := holds table isTable (.mapping [("relu", "x"), ("relu", "y")])
        ⟨displayEntry, sublist _ (by simp), named.symm,
          (kinds_mixedEntries table isTable).2.2 named.symm, Content.written_pretty _ 1⟩
      refine written.unique (.mapping (by simp) fun key value => ?_)
      simp only [lastAt_cons, lastAt_nil, List.mem_singleton, List.map_cons, List.map_nil,
        Prod.mk.injEq, List.not_mem_nil, or_false, not_false_eq_true, and_true]
      grind
    · refine frame table isTable ?_
      rw [named]
      decide +kernel
    · rintro ⟨entry, isEntry, named, gives⟩
      rcases List.mem_cons.mp isEntry with rfl | isTableEntry
      · exact absurd named (kinds_mixedEntries table isTable).1
      · refine ⟨entry, ?_, named, gives⟩
        exact List.mem_pair.mpr (List.mem_pair.mp isTableEntry).symm
    · rintro ⟨entry, isEntry, named, gives⟩
      exact ⟨entry, sublist entry isEntry, named, gives⟩
  · refine (rules_override_table_by_table _ _ (isObject_objectText _)).2 fun fits => ?_
    exact absurd fits.distinct (by decide +kernel)

end OpGraph.Rules
