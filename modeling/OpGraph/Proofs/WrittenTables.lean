import OpGraph.Proofs.JsonTexts
import OpGraph.Rules.Json

/-!
# Texts of tables

A table is written as an object of texts if it is a map, and as a list of texts if it is a set, with
blanks and escapes at will (`Content.Written`).  These texts are read as the map or set of what is
written.  At any other value reading fails.
-/

namespace OpGraph.Rules

open Json (Blank IsText IsValue Listed Member Reader Spelled isBlank)

/-- The text of an entry of a map after its first quote. -/
def IsPair (entry : String × String) (text : List Char) : Prop :=
  ∃ member : Member, text = member.body ∧ Spelled true entry.1.toList member.key ∧
    IsText entry.2 member.value

namespace Content

/-- The texts of a table. -/
inductive Written : Content → List Char → Prop where
  | mapping {entries : List (String × String)} {texts : List (List Char)} {body : List Char}
      (listed : Listed (texts.map ('"' :: ·)) body) (pairs : List.Forall₂ IsPair entries texts) :
      Written (.mapping entries) ('\x7b' :: (body ++ ['\x7d']))
  | members {items : List String} {texts : List (List Char)} {body : List Char}
      (listed : Listed texts body) (quoted : List.Forall₂ IsText items texts) :
      Written (.members items) ('[' :: (body ++ [']']))

end Content

theorem isValue_of_quoted {items : List String} {texts : List (List Char)}
    (quoted : List.Forall₂ IsText items texts) : ∀ text ∈ texts, IsValue text := by
  induction quoted with
  | nil => exact fun _ isItem => absurd isItem List.not_mem_nil
  | cons here _ ih => exact List.forall_mem_cons.mpr ⟨here.isValue, ih⟩

theorem exists_members_of_pairs {entries : List (String × String)} {texts : List (List Char)}
    (pairs : List.Forall₂ IsPair entries texts) : ∃ members : List Member,
      texts = members.map Member.body ∧ ∀ member ∈ members,
        (∃ characters, Spelled false characters member.key) ∧ IsValue member.value := by
  induction pairs with
  | nil => exact ⟨[], rfl, fun _ isMember => absurd isMember List.not_mem_nil⟩
  | cons here _ ih =>
      obtain ⟨member, rfl, spelled, isText⟩ := here
      obtain ⟨members, rfl, loose⟩ := ih
      exact ⟨member :: members, rfl,
        List.forall_mem_cons.mpr ⟨⟨spelled.loose, isText.isValue⟩, loose⟩⟩

theorem isPair_quote (entry : String × String) : IsPair entry
    (entry.1.toList.flatMap Json.escape ++ '"' :: ':' :: ' ' :: Json.quote entry.2) :=
  ⟨⟨_, [], [' '], _, Json.blank_nil, Json.blank_space⟩, rfl,
    Json.spelled_flatMap_escape entry.1.toList, Json.isText_quote entry.2⟩

namespace Content

/-- The text of a table writes it. -/
theorem written_pretty (content : Content) (level : Nat) :
    content.Written (content.toJson.pretty level) := by
  cases content with
  | mapping entries =>
      obtain ⟨body, written, listed⟩ := Json.exists_listed_object level
        (entries.map fun entry => (entry.1, .string entry.2))
      have bodies : (entries.map fun entry => (entry.1, Json.string entry.2)).map
          (Json.prettyEntry (level + 1)) = (entries.map fun entry =>
            entry.1.toList.flatMap Json.escape ++ '"' :: ':' :: ' ' :: Json.quote entry.2).map
              ('"' :: ·) := by
        simp only [List.map_map]
        exact List.map_congr_left fun entry _ => Json.quote_append entry.1 _
      rw [bodies] at listed
      rw [show (mapping entries).toJson.pretty level = _ from written]
      refine .mapping listed (List.forall₂_map_right_iff.mpr (List.forall₂_same.mpr ?_))
      exact fun entry _ => isPair_quote entry
  | members items =>
      obtain ⟨body, written, listed⟩ := Json.exists_listed_array level (items.map .string)
      have quotes : (items.map Json.string).map (Json.pretty (level + 1)) =
          items.map Json.quote := by
        rw [List.map_map]
        rfl
      rw [quotes] at listed
      rw [show (members items).toJson.pretty level = _ from written]
      refine .members listed (List.forall₂_map_right_iff.mpr (List.forall₂_same.mpr ?_))
      exact fun item _ => Json.isText_quote item

/-- A table is written as a value. -/
theorem Written.isValue {content : Content} {text : List Char} (written : content.Written text) :
    IsValue text := by
  cases written with
  | mapping listed pairs =>
      obtain ⟨members, rfl, loose⟩ := exists_members_of_pairs pairs
      rw [List.map_map] at listed
      exact .object listed (fun member isMember => (loose member isMember).1)
        fun member isMember => (loose member isMember).2
  | members listed quoted => exact .list listed (isValue_of_quoted quoted)

end Content

section Readers

variable {κ ν : Type} [Ord κ] [Std.TransOrd κ] (ofName : String → κ) (ofValue : String → ν)
variable {text blanks : List Char}

/-- The reader of an item of a set. -/
def readItem (table : Std.ExtTreeSet κ) : Reader (Std.ExtTreeSet κ) := fun text => do
  let (item, text) ← Json.readText text
  return (table.insert (ofName item), text)

/-- The reader of an entry of a map after its first quote. -/
def readPair (table : Std.ExtTreeMap κ ν) : Reader (Std.ExtTreeMap κ ν) := fun text => do
  let (name, text) ← Json.readKey text
  let text ← Json.colon text
  let (entry, text) ← Json.readText text
  return (table.insert (ofName name) (ofValue entry), text)

theorem readItem_isText (item : String) (text : List Char) (isText : IsText item text)
    (table : Std.ExtTreeSet κ) (rest : List Char) :
    readItem ofName table (text ++ rest) = .ok (table.insert (ofName item), rest) :=
  Outcome.bind_eq_ok.mpr ⟨_, Json.readText_append isText Json.blank_nil rest, rfl⟩

theorem readPair_isPair (entry : String × String) (text : List Char) (isPair : IsPair entry text)
    (table : Std.ExtTreeMap κ ν) (rest : List Char) :
    readPair ofName ofValue table (text ++ rest) =
      .ok (table.insert (ofName entry.1) (ofValue entry.2), rest) := by
  obtain ⟨member, rfl, spelled, isText⟩ := isPair
  have named := Json.readKey_append spelled
    (member.before ++ ':' :: (member.between ++ (member.value ++ rest)))
  have marked := Json.colon_append member.blankBefore (member.between ++ (member.value ++ rest))
  have valued := Json.readText_append isText member.blankBetween rest
  rw [member.body_append]
  exact Outcome.bind_eq_ok.mpr ⟨_, named, Outcome.bind_eq_ok.mpr ⟨_, marked,
    Outcome.bind_eq_ok.mpr ⟨_, valued, rfl⟩⟩⟩

theorem readItem_of_isValue (isValue : IsValue text) : (∃ item, IsText item text) ∨
    ∀ (table : Std.ExtTreeSet κ) rest, ∃ fault,
      readItem ofName table (text ++ rest) = .error fault := by
  rcases Json.readText_of_isValue isValue Json.blank_nil with isText | fails
  · exact Or.inl isText
  · refine Or.inr fun table rest => ?_
    obtain ⟨fault, failed⟩ := fails rest
    exact ⟨fault, Outcome.bind_eq_error.mpr (Or.inl failed)⟩

theorem readPair_of_isValue {member : Member} {characters : List Char}
    (loose : Spelled false characters member.key) (isValue : IsValue member.value) :
    (∃ entry, IsPair entry member.body) ∨
      ∀ (table : Std.ExtTreeMap κ ν) rest, ∃ fault,
        readPair ofName ofValue table (member.body ++ rest) = .error fault := by
  have split := member.body_append
  rcases Json.readKey_of_loose loose with ⟨name, spelled⟩ | fails
  · rcases Json.readText_of_isValue isValue member.blankBetween with ⟨value, isText⟩ | fails
    · exact Or.inl ⟨(name, value), member, rfl, spelled, isText⟩
    · refine Or.inr fun table rest => ?_
      obtain ⟨fault, failed⟩ := fails rest
      refine ⟨fault, ?_⟩
      rw [split]
      exact Outcome.bind_eq_error.mpr (Or.inr ⟨_, Json.readKey_append spelled _,
        Outcome.bind_eq_error.mpr (Or.inr ⟨_, Json.colon_append member.blankBefore _,
          Outcome.bind_eq_error.mpr (Or.inl failed)⟩)⟩)
  · refine Or.inr fun table rest => ?_
    obtain ⟨fault, failed⟩ :=
      fails (member.before ++ ':' :: (member.between ++ (member.value ++ rest)))
    refine ⟨fault, ?_⟩
    rw [split]
    exact Outcome.bind_eq_error.mpr (Or.inl failed)

/-- A set that is written is read. -/
theorem readMembers_written {items : List String}
    (written : (Content.members items).Written text) (blank : Blank blanks) (rest : List Char) :
    readMembers ofName (blanks ++ (text ++ rest)) = .ok (.ofList (items.map ofName), rest) := by
  cases written with
  | members listed quoted =>
      have takes := Json.takes_forall₂ (readItem_isText ofName) quoted ∅
      rw [readMembers, List.cons_append, Json.skipBlanks_append_cons blank rfl, List.append_assoc,
        List.singleton_append, Std.ExtTreeSet.ofList_eq_foldl, List.foldl_map]
      have opens := fun text isItem => (isValue_of_quoted quoted text isItem).opens
      exact Json.items_listed takes opens listed rest

/-- A map that is written is read. -/
theorem readMapping_written {entries : List (String × String)}
    (written : (Content.mapping entries).Written text) (blank : Blank blanks) (rest : List Char) :
    readMapping ofName ofValue (blanks ++ (text ++ rest)) =
      .ok (.ofList (entries.map fun entry => (ofName entry.1, ofValue entry.2)), rest) := by
  cases written with
  | mapping listed pairs =>
      have takes := Json.takes_forall₂ (readPair_isPair ofName ofValue) pairs ∅
      rw [readMapping, List.cons_append, Json.skipBlanks_append_cons blank rfl, List.append_assoc,
        List.singleton_append, Std.ExtTreeMap.ofList_eq_foldl, List.foldl_map]
      exact Json.entries_listed takes listed rest

/-- Reading a set fails at any other value. -/
theorem readMembers_refused (isValue : IsValue text)
    (misfit : ∀ items, ¬(Content.members items).Written text) (blank : Blank blanks)
    (rest : List Char) : ∃ fault, readMembers ofName (blanks ++ (text ++ rest)) = .error fault := by
  have other : ∀ first tail, isBlank first = false → first ≠ '[' →
      ∃ fault, readMembers ofName (blanks ++ first :: tail) = .error fault := by
    intro first tail visible noList
    rw [readMembers, Json.skipBlanks_append_cons blank visible]
    split
    · next isList => exact absurd (List.cons.inj isList).1 noList
    · exact Json.refuse_eq_error _
  cases isValue with
  | word isWord => exact (Json.opensScalar_word isWord).refused (by decide) other rest
  | number isNumber => exact (Json.opensScalar_number isNumber).refused (by decide) other rest
  | text _ => exact other _ _ rfl (by decide)
  | object _ _ _ => exact other _ _ rfl (by decide)
  | list listed values =>
      rcases Json.takes_or_fails (readItem_isText ofName)
        (fun text isItem => readItem_of_isValue ofName (values text isItem)) with
        ⟨items, quoted⟩ | fails
      · exact absurd (.members listed quoted) (misfit items)
      · rw [readMembers, List.cons_append, Json.skipBlanks_append_cons blank rfl,
          List.append_assoc]
        exact Json.exists_error_of_toOption (Json.toOption_items (fails ∅)
          (fun text isItem => (values text isItem).opens) listed rest)

/-- Reading a map fails at any other value. -/
theorem readMapping_refused (isValue : IsValue text)
    (misfit : ∀ entries, ¬(Content.mapping entries).Written text) (blank : Blank blanks)
    (rest : List Char) :
    ∃ fault, readMapping ofName ofValue (blanks ++ (text ++ rest)) = .error fault := by
  have other : ∀ first tail, isBlank first = false → first ≠ '\x7b' →
      ∃ fault, readMapping ofName ofValue (blanks ++ first :: tail) = .error fault := by
    intro first tail visible noObject
    rw [readMapping, Json.skipBlanks_append_cons blank visible]
    split
    · next isObject => exact absurd (List.cons.inj isObject).1 noObject
    · exact Json.refuse_eq_error _
  cases isValue with
  | word isWord => exact (Json.opensScalar_word isWord).refused (by decide) other rest
  | number isNumber => exact (Json.opensScalar_number isNumber).refused (by decide) other rest
  | text _ => exact other _ _ rfl (by decide)
  | list _ _ => exact other _ _ rfl (by decide)
  | @object members body listed keys values =>
      have each : ∀ text ∈ members.map Member.body, (∃ entry, IsPair entry text) ∨
          ∀ table rest, ∃ fault, readPair ofName ofValue table (text ++ rest) = .error fault := by
        intro text isBody
        obtain ⟨member, isMember, rfl⟩ := List.mem_map.mp isBody
        obtain ⟨characters, loose⟩ := keys member isMember
        exact readPair_of_isValue ofName ofValue loose (values member isMember)
      have texts : members.map (fun member => '"' :: member.body) =
          (members.map Member.body).map ('"' :: ·) := by
        rw [List.map_map]
        rfl
      rw [texts] at listed
      rcases Json.takes_or_fails (readPair_isPair ofName ofValue) each with
        ⟨entries, pairs⟩ | fails
      · exact absurd (.mapping listed pairs) (misfit entries)
      · rw [readMapping, List.cons_append, Json.skipBlanks_append_cons blank rfl,
          List.append_assoc]
        exact Json.exists_error_of_toOption (Json.toOption_entries (fails ∅) listed rest)

end Readers

end OpGraph.Rules
