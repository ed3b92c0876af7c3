import Mathlib.Data.List.Forall2
import OpGraph.Json.Reader

/-!
# Reading written texts

A reader takes a value from the beginning of a text and leaves what follows it.  Quoted texts are
read back character by character.  Lists and objects are read by loops (`Loop`), item by item: if a
reader takes a state through the texts of the items (`Takes`), then it does so wherever these texts
stand with commas between them and blanks around them (`Listed`), and the texts with one item on a
line are of this kind.
-/

namespace OpGraph.Json

/-! ### Quoted texts -/

theorem hexDigit?_digitChar : ∀ digit < 16, hexDigit? (Nat.digitChar digit) = some digit := by
  decide

theorem escape_digits : ∀ code < 0x20,
    List.replicate (4 - (Nat.toDigits 16 code).length) '0' ++ Nat.toDigits 16 code =
      ['0', '0', Nat.digitChar (code / 16), Nat.digitChar (code % 16)] := by
  decide

/-- The escape by code of a control character is read back. -/
theorem codeEscape_digits {code : Nat} (isControl : code < 0x20) (rest : List Char) :
    codeEscape true (List.replicate (4 - (Nat.toDigits 16 code).length) '0' ++
      Nat.toDigits 16 code ++ rest) = .ok (Char.ofNat code, rest) := by
  have high := hexDigit?_digitChar (code / 16) (by omega)
  have low := hexDigit?_digitChar (code % 16) (by omega)
  have zero : hexDigit? '0' = some 0 := by decide
  have unit : hexUnit ('0' :: '0' :: Nat.digitChar (code / 16) :: Nat.digitChar (code % 16) ::
      rest) = .ok (code, rest) := by
    rw [hexUnit, zero, high, low]
    dsimp only
    rw [show ((0 * 16 + 0) * 16 + code / 16) * 16 + code % 16 = code by omega]
  rw [escape_digits code isControl]
  show (hexUnit _ >>= _) = _
  refine Outcome.bind_eq_ok.mpr ⟨_, unit, ?_⟩
  dsimp only
  rw [if_neg (by decide), if_neg (by omega), if_neg (by omega)]

/-- An escape is read, and then the text after it. -/
theorem textBody_of_escaped {kept : Bool} {text after : List Char} {meant : Char}
    (read : escaped kept text = .ok (meant, after)) :
    textBody kept ('\\' :: text) = do
      let (others, after) ← textBody kept after
      return (meant :: others, after) := by
  rw [textBody, if_neg (by decide), if_pos rfl]
  split
  · next failed =>
    rw [read] at failed
    cases failed
  · next found =>
    rw [read] at found
    obtain ⟨rfl, rfl⟩ := Prod.mk.inj (Except.ok.inj found)
    rfl

/-- A written character is read back, and then the text after it. -/
theorem textBody_escape (character : Char) (text : List Char) :
    textBody true (escape character ++ text) = do
      let (others, after) ← textBody true text
      return (character :: others, after) := by
  unfold escape
  split
  iterate 7
    · exact textBody_of_escaped rfl
  · next noQuote noBackslash _ _ _ _ _ =>
    split
    · next isControl =>
      refine textBody_of_escaped ?_
      have read := codeEscape_digits isControl text
      rw [Char.ofNat_toNat] at read
      exact read
    · next visible =>
      show textBody true (character :: text) = _
      rw [textBody, if_neg noQuote, if_neg noBackslash, if_neg visible]

/-- The characters of a quoted text are read back. -/
theorem textBody_flatMap_escape (characters rest : List Char) :
    textBody true (characters.flatMap escape ++ '"' :: rest) = .ok (characters, rest) := by
  induction characters with
  | nil =>
      rw [List.flatMap_nil, List.nil_append, textBody, if_pos rfl]
  | cons character others ih =>
      rw [List.flatMap_cons, List.append_assoc, textBody_escape, ih]
      rfl

theorem readKey_quoted (text : String) (rest : List Char) :
    readKey (text.toList.flatMap escape ++ '"' :: rest) = .ok (text, rest) := by
  show (textBody true _ >>= _) = _
  refine Outcome.bind_eq_ok.mpr ⟨_, textBody_flatMap_escape text.toList rest, ?_⟩
  show Except.ok (String.ofList text.toList, rest) = _
  rw [String.ofList_toList]

theorem quote_append (text : String) (rest : List Char) :
    quote text ++ rest = '"' :: (text.toList.flatMap escape ++ '"' :: rest) := by
  simp [quote]

/-! ### Blanks -/

/-- The text holds blanks only. -/
def Blank (text : List Char) : Prop :=
  ∀ character ∈ text, isBlank character = true

theorem blank_nil : Blank [] := fun _ isMember => absurd isMember List.not_mem_nil

theorem blank_space : Blank [' '] := by
  intro character isMember
  rw [List.mem_singleton.mp isMember]
  rfl

theorem blank_newLine (level : Nat) : Blank (newLine level) := by
  intro character isMember
  rcases List.mem_cons.mp isMember with rfl | isSpace
  · rfl
  · rw [(List.mem_replicate.mp isSpace).2]
    rfl

theorem skipBlanks_append {blanks : List Char} (blank : Blank blanks) (text : List Char) :
    skipBlanks (blanks ++ text) = skipBlanks text :=
  List.dropWhile_append_of_pos blank

theorem skipBlanks_cons {character : Char} (visible : isBlank character = false)
    (text : List Char) : skipBlanks (character :: text) = character :: text :=
  List.dropWhile_cons_of_neg (by simp [visible])

/-- Blanks before a visible character are skipped. -/
theorem skipBlanks_append_cons {blanks : List Char} (blank : Blank blanks) {character : Char}
    (visible : isBlank character = false) (text : List Char) :
    skipBlanks (blanks ++ character :: text) = character :: text := by
  rw [skipBlanks_append blank, skipBlanks_cons visible]

theorem colon_append {blanks : List Char} (blank : Blank blanks) (rest : List Char) :
    colon (blanks ++ ':' :: rest) = .ok rest := by
  rw [colon, skipBlanks_append_cons blank rfl]
  rfl

/-- Blanks may follow the value in a whole text. -/
theorem readWhole_of_read {α : Type} {reader : Reader α} {text : String} {value : α}
    {rest : List Char} (read : reader text.toList = .ok (value, rest)) (blank : Blank rest) :
    readWhole reader text = .ok value := by
  have finished : skipBlanks rest = [] := by
    rw [← List.append_nil rest, skipBlanks_append blank]
    rfl
  refine Outcome.bind_eq_ok.mpr ⟨_, read, ?_⟩
  simp only [finished]
  rfl

/-! ### Lists and objects -/

/-- A text that ends here, or goes on with a character that may stand after any value. -/
def Delimited (text : List Char) : Prop :=
  ∀ character ∈ text.head?, isBlank character = true ∨ character ∈ [',', ']', '\x7d']

theorem delimited_cons {character : Char} (isMark : character ∈ [',', ']', '\x7d'])
    (rest : List Char) : Delimited (character :: rest) := by
  intro first isFirst
  obtain rfl := Option.some.inj isFirst
  exact Or.inr isMark

theorem delimited_append {blanks : List Char} (blank : Blank blanks) {text : List Char}
    (delimited : Delimited text) : Delimited (blanks ++ text) := by
  cases blanks with
  | nil => exact delimited
  | cons first others =>
      intro character isFirst
      obtain rfl := Option.some.inj isFirst
      exact Or.inl (blank first List.mem_cons_self)

/-- The texts of some items, each after a comma, with blanks around them. -/
inductive Continued : List (List Char) → List Char → Prop where
  | nil {blanks : List Char} (blank : Blank blanks) : Continued [] blanks
  | cons {before between text more : List Char} {texts : List (List Char)}
      (blankBefore : Blank before) (blankBetween : Blank between)
      (later : Continued texts more) :
      Continued (text :: texts) (before ++ ',' :: (between ++ (text ++ more)))

/-- The texts of some items with commas between them and blanks around them. -/
inductive Listed : List (List Char) → List Char → Prop where
  | nil {blanks : List Char} (blank : Blank blanks) : Listed [] blanks
  | cons {before text more : List Char} {texts : List (List Char)} (blankBefore : Blank before)
      (later : Continued texts more) : Listed (text :: texts) (before ++ (text ++ more))

/-- Every item after the first one has its comma. -/
theorem Continued.length_le {texts : List (List Char)} {text : List Char}
    (continued : Continued texts text) : texts.length ≤ text.length := by
  induction continued with
  | nil => exact Nat.zero_le _
  | cons _ _ _ ih =>
      simp only [List.length_append, List.length_cons]
      omega

/-- What follows an item delimits it. -/
theorem Continued.delimited {texts : List (List Char)} {text : List Char}
    (continued : Continued texts text) {closing : Char} (closes : closing ∈ [']', '\x7d'])
    (rest : List Char) : Delimited (text ++ closing :: rest) := by
  cases continued with
  | nil blank =>
      exact delimited_append blank (delimited_cons (List.mem_cons_of_mem _ closes) rest)
  | cons blankBefore _ _ =>
      rw [List.append_assoc]
      exact delimited_append blankBefore (delimited_cons List.mem_cons_self _)

section Lists

variable {σ : Type} {item : σ → Reader σ} {state final : σ} {result : Option σ}
variable {texts : List (List Char)} {text : List Char}

/-- A reader takes a state through some texts one after the other, whatever follows each of them.
There is no final state if the reader fails at one of them. -/
inductive Takes (item : σ → Reader σ) : σ → List (List Char) → Option σ → Prop where
  | nil (state : σ) : Takes item state [] (some state)
  | cons {state next : σ} {result : Option σ} {text : List Char} {texts : List (List Char)}
      (here : ∀ rest, Delimited rest → item state (text ++ rest) = .ok (next, rest))
      (later : Takes item next texts result) : Takes item state (text :: texts) result
  | fail {state : σ} {text : List Char} {texts : List (List Char)}
      (here : ∀ rest, Delimited rest → ∃ fault, item state (text ++ rest) = .error fault) :
      Takes item state (text :: texts) none

/-- A reader that takes every value to the next state takes the texts of some values to the state
after them. -/
theorem takes_forall₂ {α : Type} {next : σ → α → σ} {Spells : α → List Char → Prop}
    (reads : ∀ value text, Spells value text →
      ∀ state rest, item state (text ++ rest) = .ok (next state value, rest))
    {values : List α} (spelled : List.Forall₂ Spells values texts) (state : σ) :
    Takes item state texts (some (values.foldl next state)) := by
  induction spelled generalizing state with
  | nil => exact .nil state
  | @cons value text _ _ here _ ih =>
      exact .cons (fun rest _ => reads value text here state rest) (ih (next state value))

/-- If reading an item fails unless it is the text of a value, then either all items are texts of
values, or reading fails at one of them. -/
theorem takes_or_fails {α : Type} {next : σ → α → σ} {Spells : α → List Char → Prop}
    (reads : ∀ value text, Spells value text →
      ∀ state rest, item state (text ++ rest) = .ok (next state value, rest))
    (each : ∀ text ∈ texts, (∃ value, Spells value text) ∨
      ∀ state rest, ∃ fault, item state (text ++ rest) = .error fault) :
    (∃ values, List.Forall₂ Spells values texts) ∨ ∀ state, Takes item state texts none := by
  induction texts with
  | nil => exact Or.inl ⟨[], .nil⟩
  | cons text texts ih =>
      obtain ⟨here, others⟩ := List.forall_mem_cons.mp each
      rcases here with ⟨value, spelled⟩ | fails
      · rcases ih others with ⟨values, later⟩ | later
        · exact Or.inl ⟨value :: values, .cons spelled later⟩
        · exact Or.inr fun state => .cons (fun rest _ => reads value text spelled state rest)
            (later (next state value))
      · exact Or.inr fun state => .fail fun rest _ => fails state rest

/-- A loop reads items one after the other, each of them after `mark`, up to a closing character.
Its first argument bounds the number of items, and its second one tells whether an item has been
read. -/
structure Loop (item : σ → Reader σ) (mark : List Char) (closing : Char)
    (Opens : List Char → Prop) (loop : Nat → Bool → σ → Reader σ) : Prop where
  closes : closing ∈ [']', '\x7d']
  close : ∀ (bound : Nat) (first : Bool) (state : σ) {blanks : List Char} (rest : List Char),
    Blank blanks → loop (bound + 1) first state (blanks ++ closing :: rest) = .ok (state, rest)
  first : ∀ (bound : Nat) (state : σ) {blanks text : List Char} (rest : List Char),
    Blank blanks → Opens text →
      loop (bound + 1) true state (blanks ++ (mark ++ text ++ rest)) =
        (item state (text ++ rest) >>= fun taken => loop bound false taken.1 taken.2)
  next : ∀ (bound : Nat) (state : σ) {before between text : List Char} (rest : List Char),
    Blank before → Blank between → Opens text →
      loop (bound + 1) false state (before ++ ',' :: (between ++ (mark ++ text ++ rest))) =
        (item state (text ++ rest) >>= fun taken => loop bound false taken.1 taken.2)

namespace Loop

variable {mark : List Char} {closing : Char} {Opens : List Char → Prop}
variable {loop : Nat → Bool → σ → Reader σ}

/-- Items after the first one are read, up to one at which the reader fails. -/
theorem toOption_continued (isLoop : Loop item mark closing Opens loop)
    (takes : Takes item state texts result) (opens : ∀ text ∈ texts, Opens text)
    (continued : Continued (texts.map (mark ++ ·)) text) {bound : Nat}
    (enough : texts.length < bound) (rest : List Char) :
    (loop bound false state (text ++ closing :: rest)).toOption = result.map (·, rest) := by
  obtain ⟨bound, rfl⟩ : ∃ count, bound = count + 1 := ⟨bound - 1, by omega⟩
  induction takes generalizing text bound with
  | nil state =>
      cases continued with
      | nil blank =>
          rw [isLoop.close bound false state rest blank]
          rfl
  | cons here _ ih =>
      obtain ⟨isOpen, others⟩ := List.forall_mem_cons.mp opens
      obtain ⟨bound, rfl⟩ : ∃ count, bound = count + 1 := ⟨bound - 1, by simp at enough; omega⟩
      rw [List.map_cons] at continued
      cases continued with
      | cons blankBefore blankBetween later =>
          have read := here _ (later.delimited isLoop.closes rest)
          simp only [List.append_assoc, List.cons_append]
          rw [← List.append_assoc mark, isLoop.next _ _ _ blankBefore blankBetween isOpen, read]
          exact ih others later bound (by simpa using enough)
  | fail here =>
      rw [List.map_cons] at continued
      cases continued with
      | cons blankBefore blankBetween later =>
          obtain ⟨fault, failed⟩ := here _ (later.delimited isLoop.closes rest)
          simp only [List.append_assoc, List.cons_append]
          rw [← List.append_assoc mark,
            isLoop.next _ _ _ blankBefore blankBetween (opens _ List.mem_cons_self), failed]
          rfl

/-- The items are read up to the closing character, or up to one at which the reader fails. -/
theorem toOption_listed (isLoop : Loop item mark closing Opens loop)
    (takes : Takes item state texts result) (opens : ∀ text ∈ texts, Opens text)
    (listed : Listed (texts.map (mark ++ ·)) text) (rest : List Char) :
    (loop ((text ++ closing :: rest).length + 1) true state (text ++ closing :: rest)).toOption =
      result.map (·, rest) := by
  cases takes with
  | nil =>
      cases listed with
      | nil blank =>
          rw [isLoop.close _ true state rest blank]
          rfl
  | cons here later =>
      obtain ⟨isOpen, others⟩ := List.forall_mem_cons.mp opens
      rw [List.map_cons] at listed
      cases listed with
      | @cons before _ more _ blankBefore continued =>
          have read := here _ (continued.delimited isLoop.closes rest)
          have enough := continued.length_le
          rw [List.length_map] at enough
          rw [List.append_assoc, List.append_assoc, isLoop.first _ _ _ blankBefore isOpen, read]
          refine isLoop.toOption_continued later others continued ?_ rest
          simp only [List.length_append, List.length_cons]
          omega
  | fail here =>
      rw [List.map_cons] at listed
      cases listed with
      | cons blankBefore continued =>
          obtain ⟨fault, failed⟩ := here _ (continued.delimited isLoop.closes rest)
          rw [List.append_assoc, List.append_assoc,
            isLoop.first _ _ _ blankBefore (opens _ List.mem_cons_self), failed]
          rfl

end Loop

/-- The text of an item of a list begins with a character that neither is blank nor closes the
list. -/
def Opens (text : List Char) : Prop :=
  ∃ character rest, text = character :: rest ∧ isBlank character = false ∧ character ≠ ']'

theorem loop_itemsFrom (item : σ → Reader σ) : Loop item [] ']' Opens (itemsFrom item) where
  closes := by decide
  close bound first state blanks rest blank := by
    rw [itemsFrom, skipBlanks_append_cons blank rfl]
    rfl
  first bound state blanks text rest blank opens := by
    obtain ⟨character, tail, rfl, visible, noClose⟩ := opens
    rw [List.nil_append, List.cons_append, itemsFrom, skipBlanks_append_cons blank visible]
    dsimp only
    rw [if_neg noClose, if_pos rfl]
  next bound state before between text rest blankBefore blankBetween opens := by
    obtain ⟨character, tail, rfl, visible, noClose⟩ := opens
    rw [itemsFrom, skipBlanks_append_cons blankBefore rfl]
    dsimp only
    rw [if_neg (by decide), if_neg (by decide), if_pos rfl, List.nil_append, List.cons_append,
      skipBlanks_append_cons blankBetween visible]
    split
    · next isNil => cases isNil
    · next isClose => exact absurd (List.cons.inj isClose).1 noClose
    · rfl

/-- The texts of entries begin with the quote of a key. -/
theorem loop_entriesFrom (entry : σ → Reader σ) :
    Loop entry ['"'] '\x7d' (fun _ => True) (entriesFrom entry) where
  closes := by decide
  close bound first state blanks rest blank := by
    rw [entriesFrom, skipBlanks_append_cons blank rfl]
    rfl
  first bound state blanks text rest blank _ := by
    rw [List.singleton_append, List.cons_append, entriesFrom, skipBlanks_append_cons blank rfl]
    rfl
  next bound state before between text rest blankBefore blankBetween _ := by
    rw [entriesFrom, skipBlanks_append_cons blankBefore rfl]
    dsimp only
    rw [if_neg (by decide), if_neg (by decide), if_pos rfl, List.singleton_append,
      List.cons_append, skipBlanks_append_cons blankBetween rfl]
    rfl

theorem toOption_items (takes : Takes item state texts result)
    (opens : ∀ text ∈ texts, Opens text) (listed : Listed texts text) (rest : List Char) :
    (items item state (text ++ ']' :: rest)).toOption = result.map (·, rest) := by
  have same : texts.map ([] ++ ·) = texts := List.map_id texts
  exact (loop_itemsFrom item).toOption_listed takes opens (same.symm ▸ listed) rest

theorem toOption_entries {entry : σ → Reader σ} (takes : Takes entry state texts result)
    (listed : Listed (texts.map ('"' :: ·)) text) (rest : List Char) :
    (entries entry state (text ++ '\x7d' :: rest)).toOption = result.map (·, rest) :=
  (loop_entriesFrom entry).toOption_listed takes (fun _ _ => trivial) listed rest

theorem eq_ok_of_toOption {outcome : Except Fault σ} (found : outcome.toOption = some state) :
    outcome = .ok state := by
  cases outcome with
  | error fault => cases found
  | ok value => rw [Option.some.inj found]

theorem exists_error_of_toOption {outcome : Except Fault σ} (failed : outcome.toOption = none) :
    ∃ fault, outcome = .error fault := by
  cases outcome with
  | error fault => exact ⟨fault, rfl⟩
  | ok value => cases failed

/-- The items of a list are read, and its closing bracket. -/
theorem items_listed (takes : Takes item state texts (some final))
    (opens : ∀ text ∈ texts, Opens text) (listed : Listed texts text) (rest : List Char) :
    items item state (text ++ ']' :: rest) = .ok (final, rest) :=
  eq_ok_of_toOption (toOption_items takes opens listed rest)

/-- The entries of an object are read, and its closing brace. -/
theorem entries_listed {entry : σ → Reader σ} (takes : Takes entry state texts (some final))
    (listed : Listed (texts.map ('"' :: ·)) text) (rest : List Char) :
    entries entry state (text ++ '\x7d' :: rest) = .ok (final, rest) :=
  eq_ok_of_toOption (toOption_entries takes listed rest)

end Lists

/-! ### One item on a line -/

/-- Texts on lines of their own, with commas between them. -/
def lines (level : Nat) : List (List Char) → List Char
  | [] => []
  | [text] => newLine level ++ text
  | text :: rest => newLine level ++ text ++ ',' :: lines level rest

/-- The text of an entry of an object. -/
def prettyEntry (level : Nat) (entry : String × Json) : List Char :=
  quote entry.1 ++ ':' :: ' ' :: entry.2.pretty level

theorem prettyItems_eq_lines (level : Nat) (items : List Json) :
    prettyItems level items = lines level (items.map (pretty level)) := by
  induction items with
  | nil => rfl
  | cons item rest ih =>
      cases rest with
      | nil => rfl
      | cons next others =>
          show newLine level ++ item.pretty level ++ ',' :: prettyItems level (next :: others) = _
          rw [ih]
          rfl

theorem prettyEntries_eq_lines (level : Nat) (entries : List (String × Json)) :
    prettyEntries level entries = lines level (entries.map (prettyEntry level)) := by
  induction entries with
  | nil => rfl
  | cons entry rest ih =>
      obtain ⟨key, value⟩ := entry
      cases rest with
      | nil =>
          show newLine level ++ quote key ++ ':' :: ' ' :: value.pretty level = _
          rw [List.append_assoc]
          rfl
      | cons next others =>
          show newLine level ++ quote key ++ ':' :: ' ' :: value.pretty level ++
            ',' :: prettyEntries level (next :: others) = _
          rw [ih, List.append_assoc (newLine level)]
          rfl

theorem exists_continued_lines (level : Nat) {blanks : List Char} (blank : Blank blanks)
    (first : List Char) (others : List (List Char)) :
    ∃ more, lines level (first :: others) ++ blanks = newLine level ++ (first ++ more) ∧
      Continued others more := by
  induction others generalizing first with
  | nil => exact ⟨blanks, List.append_assoc .., .nil blank⟩
  | cons next others ih =>
      obtain ⟨more, same, continued⟩ := ih next
      refine ⟨_, ?_, .cons blank_nil (blank_newLine level) continued⟩
      rw [← same, List.nil_append]
      show newLine level ++ first ++ ',' :: lines level (next :: others) ++ blanks = _
      simp only [List.append_assoc, List.cons_append]

/-- Texts on lines of their own are listed, also before the line of a closing character. -/
theorem listed_lines (level : Nat) {blanks : List Char} (blank : Blank blanks)
    (texts : List (List Char)) : Listed texts (lines level texts ++ blanks) := by
  cases texts with
  | nil => exact .nil blank
  | cons first others =>
      obtain ⟨more, same, continued⟩ := exists_continued_lines level blank first others
      rw [same]
      exact .cons (blank_newLine level) continued

/-- The text of a list holds the texts of its items between brackets. -/
theorem exists_listed_array (level : Nat) (items : List Json) :
    ∃ body, (array items).pretty level = '[' :: (body ++ [']']) ∧
      Listed (items.map (pretty (level + 1))) body := by
  cases items with
  | nil => exact ⟨[], rfl, .nil blank_nil⟩
  | cons item rest =>
      refine ⟨_, ?_, listed_lines (level + 1) (blank_newLine level) _⟩
      rw [← prettyItems_eq_lines]
      rfl

/-- The text of an object holds the texts of its entries between braces. -/
theorem exists_listed_object (level : Nat) (entries : List (String × Json)) :
    ∃ body, (object entries).pretty level = '\x7b' :: (body ++ ['\x7d']) ∧
      Listed (entries.map (prettyEntry (level + 1))) body := by
  cases entries with
  | nil => exact ⟨[], rfl, .nil blank_nil⟩
  | cons entry rest =>
      refine ⟨_, ?_, listed_lines (level + 1) (blank_newLine level) _⟩
      rw [← prettyEntries_eq_lines]
      rfl

end OpGraph.Json
