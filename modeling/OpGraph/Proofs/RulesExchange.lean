import OpGraph.Proofs.WrittenTables

/-!
# Rules survive their exchange

The text of rules names every table once, and the entries of a table may come in any order.  Each
table is read back as it was, whatever was there before (`Table.Copies`), so after all tables have
been read nothing is left of the standard rules, from which reading starts.
-/

namespace OpGraph.Rules

open Json (Blank Takes)

/-! ### Maps and sets -/

section Collections

variable {κ ν : Type} [Ord κ] [Std.TransOrd κ] [Std.LawfulEqOrd κ] [DecidableEq κ]

/-- A map is made of its entries in any order. -/
theorem ofList_eq_of_perm (table : Std.ExtTreeMap κ ν) {entries : List (κ × ν)}
    (perm : table.toList.Perm entries) : Std.ExtTreeMap.ofList entries = table := by
  have distinct : entries.Pairwise fun first second => ¬compare first.1 second.1 = .eq := by
    refine (perm.pairwise_iff fun apart equal => apart ?_).mp Std.ExtTreeMap.distinct_keys_toList
    rw [Std.LawfulEqOrd.eq_of_compare equal]
    exact Std.ReflOrd.compare_self
  refine Std.ExtTreeMap.ext_getElem? fun key => ?_
  cases found : table[key]? with
  | some value =>
      refine Std.ExtTreeMap.getElem?_ofList_of_mem Std.ReflOrd.compare_self distinct ?_
      exact perm.mem_iff.mp (Std.ExtTreeMap.mem_toList_iff_getElem?_eq_some.mpr found)
  | none =>
      refine Std.ExtTreeMap.getElem?_ofList_of_contains_eq_false ?_
      rw [← (perm.map Prod.fst).contains_eq, Std.ExtTreeMap.map_fst_toList_eq_keys,
        Std.ExtTreeMap.contains_keys, Std.ExtTreeMap.contains_eq_isSome_getElem?, found]
      rfl

/-- A set is made of its members in any order. -/
theorem setOfList_eq_of_perm (table : Std.ExtTreeSet κ) {items : List κ}
    (perm : table.toList.Perm items) : Std.ExtTreeSet.ofList items = table := by
  refine Std.ExtTreeSet.ext_contains fun key => ?_
  rw [Std.ExtTreeSet.contains_ofList, ← perm.contains_eq, Std.ExtTreeSet.contains_toList]

end Collections

/-! ### Tables -/

/-- The same entries, perhaps in another order. -/
inductive Content.Reordered : Content → Content → Prop where
  | mapping {entries others : List (String × String)} (perm : entries.Perm others) :
      Reordered (.mapping entries) (.mapping others)
  | members {items others : List String} (perm : items.Perm others) :
      Reordered (.members items) (.members others)

theorem Content.Reordered.refl (content : Content) : content.Reordered content := by
  cases content with
  | mapping entries => exact .mapping (.refl entries)
  | members items => exact .members (.refl items)

namespace Table

/-- When the table of `source` is read into `target`, with its entries in any order, `result` comes
out. -/
def Copies (table : Table) (source target result : Rules) : Prop :=
  ∀ content, (table.content source).Reordered content → ∀ (level : Nat) (blanks rest : List Char),
    Blank blanks → table.replace target (blanks ++ (content.toJson.pretty level ++ rest)) =
      .ok (result, rest)

variable {κ ν : Type} [Ord κ] [Std.TransOrd κ] [Std.LawfulEqOrd κ] [DecidableEq κ]

theorem copies_ofMap (key : String) {ofName : String → κ} {toName : κ → String}
    {ofValue : String → ν} {toValue : ν → String} (names : Function.LeftInverse ofName toName)
    (values : Function.LeftInverse ofValue toValue) (get : Rules → Std.ExtTreeMap κ ν)
    (set : Rules → Std.ExtTreeMap κ ν → Rules) (source target : Rules) :
    (ofMap key ofName toName ofValue toValue get set).Copies source target
      (set target (get source)) := by
  intro content reordered level blanks rest blank
  obtain ⟨entries, perm, rfl⟩ : ∃ entries, ((get source).toList.map fun entry =>
      (toName entry.1, toValue entry.2)).Perm entries ∧ content = .mapping entries := by
    cases reordered with
    | mapping perm => exact ⟨_, perm, rfl⟩
  have original : (get source).toList.Perm
      (entries.map fun entry => (ofName entry.1, ofValue entry.2)) := by
    have mapped := perm.map fun entry => (ofName entry.1, ofValue entry.2)
    rw [List.map_map] at mapped
    refine (List.Perm.of_eq ?_).trans mapped
    refine (List.map_id _).symm.trans (List.map_congr_left fun entry _ => ?_)
    show entry = (ofName (toName entry.1), ofValue (toValue entry.2))
    rw [names, values]
  have written := (Content.mapping entries).written_pretty level
  have read := readMapping_written ofName ofValue written blank rest
  rw [ofList_eq_of_perm _ original] at read
  exact Outcome.bind_eq_ok.mpr ⟨_, read, rfl⟩

theorem copies_ofSet (key : String) {ofName : String → κ} {toName : κ → String}
    (names : Function.LeftInverse ofName toName) (get : Rules → Std.ExtTreeSet κ)
    (set : Rules → Std.ExtTreeSet κ → Rules) (source target : Rules) :
    (ofSet key ofName toName get set).Copies source target (set target (get source)) := by
  intro content reordered level blanks rest blank
  obtain ⟨items, perm, rfl⟩ : ∃ items, ((get source).toList.map toName).Perm items ∧
      content = .members items := by
    cases reordered with
    | members perm => exact ⟨_, perm, rfl⟩
  have original : (get source).toList.Perm (items.map ofName) := by
    have mapped := perm.map ofName
    rw [List.map_map, names.comp_eq_id, List.map_id] at mapped
    exact mapped
  have written := (Content.members items).written_pretty level
  have read := readMembers_written ofName written blank rest
  rw [setOfList_eq_of_perm _ original] at read
  exact Outcome.bind_eq_ok.mpr ⟨_, read, rfl⟩

/-- Reading some tables of `source` one after the other takes `target` to `result`. -/
inductive CopiesAll (source : Rules) : List Table → Rules → Rules → Prop where
  | nil (rules : Rules) : CopiesAll source [] rules rules
  | cons {table : Table} {tables : List Table} {target next result : Rules}
      (here : table.Copies source target next) (later : CopiesAll source tables next result) :
      CopiesAll source (table :: tables) target result

end Table

theorem leftInverse_mk_path : Function.LeftInverse FunctionPath.mk FunctionPath.path := fun _ => rfl

theorem leftInverse_id : Function.LeftInverse (id : String → String) id := fun _ => rfl

/-- All tables together replace all rules. -/
theorem copiesAll_tables (source target : Rules) : Table.CopiesAll source tables target source :=
  .cons (Table.copies_ofMap _ leftInverse_id leftInverse_mk_path _ _ _ _) <|
  .cons (Table.copies_ofMap _ leftInverse_mk_path leftInverse_mk_path _ _ _ _) <|
  .cons (Table.copies_ofSet _ leftInverse_id _ _ _ _) <|
  .cons (Table.copies_ofSet _ leftInverse_id _ _ _ _) <|
  .cons (Table.copies_ofSet _ leftInverse_id _ _ _ _) <|
  .cons (Table.copies_ofSet _ leftInverse_mk_path _ _ _ _) <|
  .cons (Table.copies_ofSet _ leftInverse_id _ _ _ _) <|
  .cons (Table.copies_ofSet _ leftInverse_mk_path _ _ _ _) <|
  .cons (Table.copies_ofMap _ leftInverse_mk_path leftInverse_mk_path _ _ _ _) <|
  .cons (Table.copies_ofMap _ leftInverse_mk_path leftInverse_mk_path _ _ _ _) <|
  .cons (Table.copies_ofMap _ leftInverse_mk_path leftInverse_mk_path _ _ _ _) <|
  .cons (Table.copies_ofSet _ leftInverse_mk_path _ _ _ _) <|
  .cons (Table.copies_ofMap _ leftInverse_mk_path leftInverse_id _ _ _ _) <|
  .nil source

/-! ### Rules -/

section Keys

variable {before after : List Table} {table : Table}

/-- No table before another one has its key. -/
theorem key_notMem (split : tables = before ++ table :: after) :
    table.key ∉ before.map Table.key := by
  have distinct : (tables.map Table.key).Nodup := by decide
  rw [split, List.map_append, List.map_cons] at distinct
  obtain ⟨-, -, apart⟩ := List.nodup_append.mp distinct
  exact fun isBefore => apart _ isBefore _ List.mem_cons_self rfl

/-- A key belongs to one table. -/
theorem find?_key (split : tables = before ++ table :: after) :
    (tables.find? fun other => other.key = table.key) = some table := by
  have absent : (before.find? fun other => other.key = table.key) = none := by
    refine List.find?_eq_none.mpr fun other isBefore same => key_notMem split ?_
    rw [← of_decide_eq_true same]
    exact List.mem_map_of_mem isBefore
  rw [split, List.find?_append, absent, Option.none_or]
  exact List.find?_cons_of_pos (decide_eq_true rfl)

end Keys

/-- The text of an entry of the rules after its first quote. -/
def entryBody (content : Table → Content) (table : Table) : List Char :=
  table.key.toList.flatMap Json.escape ++
    '"' :: ':' :: ' ' :: (content table).toJson.pretty 1

section Entries

variable {source target next result : Rules} {content : Table → Content}

/-- The entry of a table is read after those of the tables before it. -/
theorem readEntry_entryBody {before after : List Table} {table : Table}
    (split : tables = before ++ table :: after) (copies : table.Copies source target next)
    (reordered : (table.content source).Reordered (content table)) (rest : List Char) :
    readEntry ⟨target, (before.map Table.key).reverse⟩ (entryBody content table ++ rest) =
      .ok (⟨next, ((before ++ [table]).map Table.key).reverse⟩, rest) := by
  have named := Json.readKey_quoted table.key
    (':' :: ' ' :: ((content table).toJson.pretty 1 ++ rest))
  have unseen : (before.map Table.key).reverse.contains table.key = false := by
    refine Bool.eq_false_iff.mpr fun seen => key_notMem split ?_
    exact List.mem_reverse.mp (List.contains_iff_mem.mp seen)
  have marked := Json.colon_append Json.blank_nil
    (' ' :: ((content table).toJson.pretty 1 ++ rest))
  have replaced := copies _ reordered 1 [' '] rest Json.blank_space
  rw [entryBody, List.append_assoc]
  refine Outcome.bind_eq_ok.mpr ⟨_, named, ?_⟩
  simp only [find?_key split, unseen]
  refine Outcome.bind_eq_ok.mpr ⟨_, marked, Outcome.bind_eq_ok.mpr ⟨_, replaced, ?_⟩⟩
  rw [List.map_append, List.reverse_append]
  rfl

theorem takes_tables (reordered : ∀ table ∈ tables,
    (table.content source).Reordered (content table)) {before later : List Table}
    (split : tables = before ++ later) (copies : Table.CopiesAll source later target result) :
    Takes readEntry ⟨target, (before.map Table.key).reverse⟩ (later.map (entryBody content))
      (some ⟨result, (tables.map Table.key).reverse⟩) := by
  induction copies generalizing before with
  | nil rules =>
      rw [split, List.append_nil]
      exact .nil _
  | @cons table later target next result here _ ih =>
      have isTable : table ∈ tables := split ▸ List.mem_append_right _ List.mem_cons_self
      have read := readEntry_entryBody split here (reordered table isTable)
      refine .cons (fun rest _ => read rest) (ih ?_)
      rw [split, List.append_assoc, List.singleton_append]

end Entries

/-- The texts of rules: every table stands at its key, with its entries in any order. -/
def Written (rules : Rules) (text : String) : Prop :=
  ∃ content : Table → Content,
    (∀ table ∈ tables, (table.content rules).Reordered (content table)) ∧
    text = (Json.object (tables.map fun table => (table.key, (content table).toJson))).toPrettyText

theorem read_written {rules : Rules} {content : Table → Content}
    (reordered : ∀ table ∈ tables, (table.content rules).Reordered (content table)) :
    read ((Json.object (tables.map fun table =>
      (table.key, (content table).toJson))).pretty 0) = .ok (rules, []) := by
  obtain ⟨text, written, listed⟩ := Json.exists_listed_object 0
    (tables.map fun table => (table.key, (content table).toJson))
  have bodies : (tables.map fun table => (table.key, (content table).toJson)).map
      (Json.prettyEntry 1) = (tables.map (entryBody content)).map ('"' :: ·) := by
    simp only [List.map_map]
    exact List.map_congr_left fun table _ => Json.quote_append table.key _
  rw [bodies] at listed
  have takes := takes_tables reordered (List.nil_append tables).symm
    (copiesAll_tables rules standard)
  have entries := Json.entries_listed takes listed []
  rw [read, written, Json.skipBlanks_cons rfl]
  exact Outcome.bind_eq_ok.mpr ⟨_, entries, rfl⟩

/-- Rules are read back from their text, and from any text with the same tables in which the
entries of a table come in another order. -/
theorem rules_survive_exchange (rules : Rules) :
    rules.Written rules.toText ∧ ∀ text, rules.Written text → ofText text = .ok rules := by
  constructor
  · exact ⟨fun table => table.content rules, fun table _ => .refl _, rfl⟩
  · rintro text ⟨content, reordered, rfl⟩
    have whole := read_written reordered
    rw [ofText, Json.readWhole, Json.toPrettyText, String.toList_ofList]
    exact Outcome.bind_eq_ok.mpr ⟨_, whole, rfl⟩

/-- Rules with names that are escaped in their text, and with an empty table. -/
def unusualRules : Rules where
  methodFunctions := .ofList [
    ("a\"b\\", FunctionPath.mk "\n\t"), ("\u0001", .mk ""), ("é𝄞", .mk "relu")]
  aliases := ∅
  opaqueClasses := .ofList ["z", "𝄞", "\r"]
  viewOps := ∅
  possibleViewOps := ∅
  pureFunctions := ∅
  purePackages := ∅
  flagFunctions := ∅
  inplaceVariants := ∅
  destructiveOperators := ∅
  operatorFunctions := ∅
  elementwiseFunctions := ∅
  displayNames := ∅

/-- The tables of `unusualRules`, each with its last entry first. -/
def unusualContent (table : Table) : Content :=
  match table.content unusualRules with
  | .mapping entries => .mapping entries.reverse
  | .members items => .members items.reverse

/-- A text with these tables. -/
def unusualText : String :=
  (Json.object (tables.map fun table => (table.key, (unusualContent table).toJson))).toPrettyText

/-- The rules are read back from it. -/
theorem unusualRules_survive_exchange :
    unusualRules.Written unusualText ∧ unusualText ≠ unusualRules.toText ∧
      ofText unusualText = .ok unusualRules := by
  have reordered : unusualRules.Written unusualText := by
    refine ⟨unusualContent, fun table _ => ?_, rfl⟩
    rw [unusualContent]
    cases table.content unusualRules with
    | mapping entries => exact .mapping entries.reverse_perm.symm
    | members items => exact .members items.reverse_perm.symm
  exact ⟨reordered, by decide +kernel, (rules_survive_exchange unusualRules).2 _ reordered⟩

end OpGraph.Rules
