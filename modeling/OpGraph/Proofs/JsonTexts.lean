import OpGraph.Json.Skip
import OpGraph.Proofs.WrittenTexts

/-!
# Texts in exchange form

The grammar of values (`IsValue`) says which texts are in the format, without regard to how they are
read: blanks may stand wherever they are allowed, and a character may have several spellings.  Every
such text is skipped as a whole, to any depth (`skipValue_append`).  A quoted text that may be
skipped can be read unless it holds an unpaired surrogate (`textBody_of_loose`).
-/

namespace OpGraph.Json

/-! ### Spellings of characters -/

/-- The escapes by a letter, with the characters that they mean. -/
def letterEscapes : List (Char × Char) :=
  [('"', '"'), ('\\', '\\'), ('/', '/'), ('b', '\x08'), ('f', '\x0c'), ('n', '\n'), ('r', '\r'),
    ('t', '\t')]

/-- Four hexadecimal digits and the code that they write. -/
inductive CodeUnit : Nat → List Char → Prop where
  | mk {a b c d : Char} {w x y z : Nat} (first : hexDigit? a = some w)
      (second : hexDigit? b = some x) (third : hexDigit? c = some y)
      (fourth : hexDigit? d = some z) :
      CodeUnit (((w * 16 + x) * 16 + y) * 16 + z) [a, b, c, d]

/-- The character of a surrogate pair. -/
def pairedCharacter (high low : Nat) : Char :=
  Char.ofNat (0x10000 + (high - 0xD800) * 0x400 + (low - 0xDC00))

/-- An escape without its backslash, and the character that it means.  If the text is not kept, a
code means the replacement character, and surrogates need no partner. -/
inductive Escape (kept : Bool) : Char → List Char → Prop where
  | letter {letter meant : Char} (isLetter : (letter, meant) ∈ letterEscapes) :
      Escape kept meant [letter]
  | code {code : Nat} {digits : List Char} (isKept : kept = true) (unit : CodeUnit code digits)
      (noSurrogate : code < 0xD800 ∨ 0xDFFF < code) :
      Escape kept (Char.ofNat code) ('u' :: digits)
  | pair {high low : Nat} {first second : List Char} (isKept : kept = true)
      (highUnit : CodeUnit high first) (isHigh : 0xD800 ≤ high ∧ high ≤ 0xDBFF)
      (lowUnit : CodeUnit low second) (isLow : 0xDC00 ≤ low ∧ low ≤ 0xDFFF) :
      Escape kept (pairedCharacter high low) ('u' :: (first ++ '\\' :: 'u' :: second))
  | skipped {code : Nat} {digits : List Char} (notKept : kept = false)
      (unit : CodeUnit code digits) : Escape kept '\ufffd' ('u' :: digits)

/-- The text between two quotes that means the given characters. -/
inductive Spelled (kept : Bool) : List Char → List Char → Prop where
  | nil : Spelled kept [] []
  | plain {character : Char} {others body : List Char} (noQuote : character ≠ '"')
      (noBackslash : character ≠ '\\') (visible : ¬character.toNat < 0x20)
      (later : Spelled kept others body) : Spelled kept (character :: others) (character :: body)
  | escape {meant : Char} {code others body : List Char} (here : Escape kept meant code)
      (later : Spelled kept others body) : Spelled kept (meant :: others) ('\\' :: (code ++ body))

theorem hexUnit_append {code : Nat} {digits : List Char} (unit : CodeUnit code digits)
    (rest : List Char) : hexUnit (digits ++ rest) = .ok (code, rest) := by
  cases unit with
  | mk first second third fourth =>
      simp only [List.cons_append, List.nil_append, hexUnit, first, second, third, fourth]

theorem codeUnit_of_hexUnit {text rest : List Char} {code : Nat}
    (read : hexUnit text = .ok (code, rest)) :
    ∃ digits, text = digits ++ rest ∧ CodeUnit code digits := by
  unfold hexUnit at read
  split at read
  · split at read
    · next first second third fourth =>
      obtain ⟨rfl, rfl⟩ := Prod.mk.inj (Except.ok.inj read)
      exact ⟨_, rfl, .mk first second third fourth⟩
    · cases read
  · cases read

/-- An escape is read as the character that it means. -/
theorem escaped_append {kept : Bool} {meant : Char} {code : List Char}
    (escape : Escape kept meant code) (rest : List Char) :
    escaped kept (code ++ rest) = .ok (meant, rest) := by
  cases escape with
  | letter isLetter =>
      have letters : ∀ pair ∈ letterEscapes,
          escaped kept ([pair.1] ++ rest) = .ok (pair.2, rest) := by
        simp [letterEscapes, escaped]
      exact letters _ isLetter
  | @code code digits isKept unit noSurrogate =>
      show codeEscape kept (digits ++ rest) = _
      refine Outcome.bind_eq_ok.mpr ⟨_, hexUnit_append unit rest, ?_⟩
      subst isKept
      dsimp only
      rw [if_neg (by decide), if_neg (by omega), if_neg (by omega)]
  | @pair high low first second isKept highUnit isHigh lowUnit isLow =>
      show codeEscape kept (first ++ '\\' :: 'u' :: second ++ rest) = _
      rw [List.append_assoc]
      refine Outcome.bind_eq_ok.mpr ⟨_, hexUnit_append highUnit _, ?_⟩
      subst isKept
      dsimp only
      rw [if_neg (by decide), if_pos isHigh]
      refine Outcome.bind_eq_ok.mpr ⟨_, hexUnit_append lowUnit rest, ?_⟩
      dsimp only
      rw [if_pos isLow, pairedCharacter]
  | @skipped code digits notKept unit =>
      show codeEscape kept (digits ++ rest) = _
      refine Outcome.bind_eq_ok.mpr ⟨_, hexUnit_append unit rest, ?_⟩
      subst notKept
      rfl

theorem codeUnit_of_lowSurrogate {high : Nat} {text rest : List Char} {meant : Char}
    (read : lowSurrogate high text = .ok (meant, rest)) :
    ∃ low digits, text = '\\' :: 'u' :: (digits ++ rest) ∧ CodeUnit low digits ∧
      (0xDC00 ≤ low ∧ low ≤ 0xDFFF) ∧ meant = pairedCharacter high low := by
  unfold lowSurrogate at read
  split at read
  · cases read
  · cases read
  · obtain ⟨⟨low, left⟩, taken, outcome⟩ := Outcome.bind_eq_ok.mp read
    obtain ⟨digits, rfl, unit⟩ := codeUnit_of_hexUnit taken
    dsimp only at outcome
    split at outcome
    · next isLow =>
      obtain ⟨rfl, rfl⟩ := Prod.mk.inj (Except.ok.inj outcome)
      exact ⟨low, digits, rfl, unit, isLow, rfl⟩
    · cases outcome
  · cases read

theorem escape_of_codeEscape {kept : Bool} {text rest : List Char} {meant : Char}
    (read : codeEscape kept text = .ok (meant, rest)) :
    ∃ digits, text = digits ++ rest ∧ Escape kept meant ('u' :: digits) := by
  obtain ⟨⟨code, after⟩, taken, outcome⟩ := Outcome.bind_eq_ok.mp read
  obtain ⟨digits, rfl, unit⟩ := codeUnit_of_hexUnit taken
  dsimp only at outcome
  split at outcome
  · next notKept =>
    obtain ⟨rfl, rfl⟩ := Prod.mk.inj (Except.ok.inj outcome)
    exact ⟨digits, rfl, .skipped (by simpa using notKept) unit⟩
  · next isKept =>
    replace isKept : kept = true := by simpa using isKept
    split at outcome
    · next isHigh =>
      obtain ⟨low, others, rfl, lowUnit, isLow, same⟩ := codeUnit_of_lowSurrogate outcome
      refine ⟨digits ++ '\\' :: 'u' :: others, ?_, ?_⟩
      · simp only [List.append_assoc, List.cons_append]
      · rw [same]
        exact .pair isKept unit isHigh lowUnit isLow
    · split at outcome
      · cases outcome
      · next noHigh noLow =>
        obtain ⟨rfl, rfl⟩ := Prod.mk.inj (Except.ok.inj outcome)
        exact ⟨digits, rfl, .code isKept unit (by omega)⟩

/-- What is read as an escape is one. -/
theorem escape_of_escaped {kept : Bool} {text rest : List Char} {meant : Char}
    (read : escaped kept text = .ok (meant, rest)) :
    ∃ code, text = code ++ rest ∧ Escape kept meant code := by
  unfold escaped at read
  split at read
  · cases read
  · next character after =>
    split at read
    iterate 8
      · obtain ⟨rfl, rfl⟩ := Prod.mk.inj (Except.ok.inj read)
        exact ⟨_, rfl, .letter (by decide)⟩
    · obtain ⟨digits, rfl, escape⟩ := escape_of_codeEscape read
      exact ⟨_, rfl, escape⟩
    · cases read

/-- A spelling is read as the characters that it means. -/
theorem textBody_append {kept : Bool} {characters body : List Char}
    (spelled : Spelled kept characters body) (rest : List Char) :
    textBody kept (body ++ '"' :: rest) = .ok (characters, rest) := by
  induction spelled with
  | nil => rw [List.nil_append, textBody, if_pos rfl]
  | plain noQuote noBackslash visible _ ih =>
      rw [List.cons_append, textBody, if_neg noQuote, if_neg noBackslash, if_neg visible, ih]
      rfl
  | escape here _ ih =>
      rw [List.cons_append, List.append_assoc, textBody_of_escaped (escaped_append here _), ih]
      rfl

/-- What is read as characters is a spelling of them. -/
theorem spelled_of_textBody {kept : Bool} {text characters rest : List Char}
    (read : textBody kept text = .ok (characters, rest)) :
    ∃ body, text = body ++ '"' :: rest ∧ Spelled kept characters body := by
  fun_induction textBody kept text generalizing characters rest with
  | case1 => cases read
  | case2 =>
      obtain ⟨rfl, rfl⟩ := Prod.mk.inj (Except.ok.inj read)
      exact ⟨[], rfl, .nil⟩
  | case3 => cases read
  | case4 later meant after escape _ ih =>
      obtain ⟨⟨others, left⟩, inner, same⟩ := Outcome.bind_eq_ok.mp read
      obtain ⟨rfl, rfl⟩ := Prod.mk.inj (Except.ok.inj same)
      obtain ⟨code, rfl, here⟩ := escape_of_escaped escape
      obtain ⟨body, rfl, spelled⟩ := ih inner
      exact ⟨'\\' :: (code ++ body), by simp, .escape here spelled⟩
  | case5 => cases read
  | case6 character later noQuote noBackslash visible ih =>
      obtain ⟨⟨others, left⟩, inner, same⟩ := Outcome.bind_eq_ok.mp read
      obtain ⟨rfl, rfl⟩ := Prod.mk.inj (Except.ok.inj same)
      obtain ⟨body, rfl, spelled⟩ := ih inner
      exact ⟨character :: body, rfl, .plain noQuote noBackslash visible spelled⟩

/-- The text of characters is a spelling of them. -/
theorem spelled_flatMap_escape (characters : List Char) :
    Spelled true characters (characters.flatMap escape) := by
  obtain ⟨body, same, spelled⟩ := spelled_of_textBody (textBody_flatMap_escape characters [])
  rw [List.append_cancel_right same]
  exact spelled

/-- What can be read can be skipped. -/
theorem Spelled.loose {characters body : List Char} (spelled : Spelled true characters body) :
    ∃ others, Spelled false others body := by
  induction spelled with
  | nil => exact ⟨[], .nil⟩
  | plain noQuote noBackslash visible _ ih =>
      obtain ⟨others, later⟩ := ih
      exact ⟨_, .plain noQuote noBackslash visible later⟩
  | escape here _ ih =>
      obtain ⟨others, later⟩ := ih
      cases here with
      | letter isLetter => exact ⟨_, .escape (.letter isLetter) later⟩
      | code _ unit _ => exact ⟨_, .escape (.skipped rfl unit) later⟩
      | pair _ highUnit _ lowUnit _ =>
          -- skipping takes the two halves of a pair for two characters
          have halves := Spelled.escape (.skipped rfl highUnit)
            (Spelled.escape (.skipped rfl lowUnit) later)
          exact ⟨_, by simpa using halves⟩
      | skipped notKept _ => cases notKept

/-- A text that can be skipped is read as a whole, or reading it fails. -/
theorem textBody_of_loose {others body : List Char} (loose : Spelled false others body) :
    (∃ characters, Spelled true characters body) ∨
      ∀ rest, ∃ fault, textBody true (body ++ '"' :: rest) = .error fault := by
  by_cases strict : ∃ characters, Spelled true characters body
  · exact Or.inl strict
  · refine Or.inr fun rest => ?_
    cases read : textBody true (body ++ '"' :: rest) with
    | error fault => exact ⟨fault, rfl⟩
    | ok taken =>
        -- both ways of going over the text stop at the same quote
        obtain ⟨other, same, spelled⟩ := spelled_of_textBody read
        obtain ⟨_, otherLoose⟩ := spelled.loose
        have skipped := textBody_append loose rest
        rw [same, textBody_append otherLoose] at skipped
        obtain ⟨-, sameRest⟩ := Prod.mk.inj (Except.ok.inj skipped)
        rw [sameRest] at same
        exact absurd ⟨_, List.append_cancel_right same ▸ spelled⟩ strict

/-! ### Numbers -/

/-- One or more digits. -/
def Digits (text : List Char) : Prop :=
  text ≠ [] ∧ ∀ character ∈ text, character.isDigit = true

/-- The fraction of a number, or nothing. -/
inductive Fraction : List Char → Prop where
  | none : Fraction []
  | some {digits : List Char} (isDigits : Digits digits) : Fraction ('.' :: digits)

/-- The power of ten of a number, or nothing. -/
inductive Power : List Char → Prop where
  | none : Power []
  | some {mark : Char} {sign digits : List Char} (isMark : mark ∈ ['e', 'E'])
      (isSign : sign ∈ [[], ['+'], ['-']]) (isDigits : Digits digits) :
      Power (mark :: (sign ++ digits))

/-- A number without its sign.  Its digits before the point begin with zero only if that is all. -/
inductive Magnitude : List Char → Prop where
  | mk {whole fraction power : List Char} (isDigits : Digits whole)
      (noZero : whole.head? = some '0' → whole = ['0']) (isFraction : Fraction fraction)
      (isPower : Power power) : Magnitude (whole ++ (fraction ++ power))

/-- A number. -/
inductive IsNumber : List Char → Prop where
  | positive {text : List Char} (magnitude : Magnitude text) : IsNumber text
  | negative {text : List Char} (magnitude : Magnitude text) : IsNumber ('-' :: text)

/-- The text does not go on with a digit. -/
def Stops (text : List Char) : Prop :=
  ∀ character ∈ text.head?, character.isDigit = false

theorem stops_cons {character : Char} (noDigit : character.isDigit = false) (rest : List Char) :
    Stops (character :: rest) := by
  intro first isFirst
  rw [← Option.some.inj isFirst]
  exact noDigit

theorem isDigit_of_isBlank {character : Char} (blank : isBlank character = true) :
    character.isDigit = false := by
  simp only [isBlank, Bool.or_eq_true, beq_iff_eq] at blank
  rcases blank with ((rfl | rfl) | rfl) | rfl <;> rfl

theorem isBlank_of_isDigit {character : Char} (isDigit : character.isDigit = true) :
    isBlank character = false :=
  Bool.eq_false_iff.mpr fun blank => by simp [isDigit_of_isBlank blank] at isDigit

theorem ne_of_isDigit {character other : Char} (isDigit : character.isDigit = true)
    (noDigit : other.isDigit = false) : character ≠ other := by
  rintro rfl
  rw [isDigit] at noDigit
  cases noDigit

theorem Delimited.stops {rest : List Char} (delimited : Delimited rest) : Stops rest := by
  intro character isFirst
  rcases delimited character isFirst with blank | isMark
  · exact isDigit_of_isBlank blank
  · have marks : ∀ mark ∈ [',', ']', '\x7d'], mark.isDigit = false := by simp
    exact marks character isMark

theorem skipDigits_append {digits rest : List Char} (isDigits : Digits digits)
    (stops : Stops rest) : skipDigits (digits ++ rest) = .ok rest := by
  obtain ⟨nonempty, each⟩ := isDigits
  have dropped : (digits ++ rest).dropWhile Char.isDigit = rest := by
    rw [List.dropWhile_append_of_pos each]
    cases rest with
    | nil => rfl
    | cons character others =>
        exact List.dropWhile_cons_of_neg (by simp [stops character rfl])
  cases digits with
  | nil => exact absurd rfl nonempty
  | cons first others =>
      rw [List.cons_append] at dropped ⊢
      rw [skipDigits, if_pos (each first List.mem_cons_self), dropped]

theorem skipExponent_append {sign digits rest : List Char} (isSign : sign ∈ [[], ['+'], ['-']])
    (isDigits : Digits digits) (stops : Stops rest) :
    skipExponent (sign ++ (digits ++ rest)) = .ok rest := by
  have skipped := skipDigits_append isDigits stops
  simp only [List.mem_cons, List.not_mem_nil, or_false] at isSign
  rcases isSign with rfl | rfl | rfl
  · obtain ⟨nonempty, each⟩ := isDigits
    cases digits with
    | nil => exact absurd rfl nonempty
    | cons first others =>
        have isDigit := each first List.mem_cons_self
        rw [List.nil_append, List.cons_append] at *
        unfold skipExponent
        split
        · next isPlus => simp [(List.cons.inj isPlus).1] at isDigit
        · next isMinus => simp [(List.cons.inj isMinus).1] at isDigit
        · exact skipped
  · exact skipped
  · exact skipped

theorem skipPower_append {power rest : List Char} (isPower : Power power)
    (delimited : Delimited rest) : skipPower (power ++ rest) = .ok rest := by
  cases isPower with
  | none =>
      rw [List.nil_append]
      unfold skipPower
      split
      · exact absurd (delimited 'e' rfl) (by decide)
      · exact absurd (delimited 'E' rfl) (by decide)
      · rfl
  | @some mark sign digits isMark isSign isDigits =>
      have skipped := skipExponent_append isSign isDigits delimited.stops
      rw [List.cons_append, List.append_assoc]
      rcases List.mem_pair.mp isMark with rfl | rfl
      · exact skipped
      · exact skipped

theorem Power.stops_append {power rest : List Char} (isPower : Power power)
    (delimited : Delimited rest) : Stops (power ++ rest) := by
  cases isPower with
  | none => exact delimited.stops
  | some isMark _ _ =>
      refine stops_cons ?_ _
      rcases List.mem_pair.mp isMark with rfl | rfl <;> rfl

theorem Power.append_ne_point {power rest : List Char} (isPower : Power power)
    (delimited : Delimited rest) (tail : List Char) : power ++ rest ≠ '.' :: tail := by
  intro isPoint
  cases isPower with
  | none =>
      rw [List.nil_append] at isPoint
      exact absurd (delimited '.' (by rw [isPoint]; rfl)) (by decide)
  | some isMark _ _ =>
      rw [(List.cons.inj isPoint).1] at isMark
      exact absurd isMark (by decide)

theorem Fraction.stops_append {fraction text : List Char} (isFraction : Fraction fraction)
    (stops : Stops text) : Stops (fraction ++ text) := by
  cases isFraction with
  | none => exact stops
  | some _ => exact stops_cons rfl _

theorem skipNumber_append {text rest : List Char} (magnitude : Magnitude text)
    (delimited : Delimited rest) : skipNumber (text ++ rest) = .ok rest := by
  obtain @⟨whole, fraction, power, isDigits, noZero, isFraction, isPower⟩ := magnitude
  have powerStops := isPower.stops_append delimited
  have stops := isFraction.stops_append powerStops
  have nonempty := isDigits.1
  rw [List.append_assoc, List.append_assoc, skipNumber, if_neg]
  · refine Outcome.bind_eq_ok.mpr ⟨_, skipDigits_append isDigits stops, ?_⟩
    cases isFraction with
    | none =>
        rw [List.nil_append]
        split
        · next isPoint => exact absurd isPoint (isPower.append_ne_point delimited _)
        · exact skipPower_append isPower delimited
    | some fractionDigits =>
        refine Outcome.bind_eq_ok.mpr ⟨_, skipDigits_append fractionDigits powerStops, ?_⟩
        exact skipPower_append isPower delimited
  · -- a zero before other digits is no beginning of a number
    rintro ⟨isZero, goesOn⟩
    rw [List.head?_append_of_ne_nil _ nonempty] at isZero
    rw [noZero isZero] at goesOn
    cases found : (fraction ++ (power ++ rest)).head? with
    | none => simp [found] at goesOn
    | some character =>
        have noDigit := stops character found
        simp [found, noDigit] at goesOn

/-! ### Values -/

/-- The parts of the text of an entry: its key as it is spelled, the blanks on both sides of the
colon, and its value. -/
structure Member where
  /-- The key between its quotes. -/
  key : List Char
  /-- The blanks before the colon. -/
  before : List Char
  /-- The blanks after the colon. -/
  between : List Char
  /-- The text of the value. -/
  value : List Char
  blankBefore : Blank before
  blankBetween : Blank between

namespace Member

/-- The text of an entry after its first quote. -/
def body (member : Member) : List Char :=
  member.key ++ '"' :: (member.before ++ ':' :: (member.between ++ member.value))

theorem body_append (member : Member) (rest : List Char) : member.body ++ rest =
    member.key ++ '"' :: (member.before ++ ':' :: (member.between ++ (member.value ++ rest))) := by
  simp only [body, List.append_assoc, List.cons_append]

end Member

/-- The words that are values. -/
def words : List (List Char) :=
  [['n', 'u', 'l', 'l'], ['t', 'r', 'u', 'e'], ['f', 'a', 'l', 's', 'e']]

/-- The texts of values. -/
inductive IsValue : List Char → Prop where
  | word {text : List Char} (isWord : text ∈ words) : IsValue text
  | number {text : List Char} (isNumber : IsNumber text) : IsValue text
  | text {characters body : List Char} (spelled : Spelled false characters body) :
      IsValue ('"' :: (body ++ ['"']))
  | list {texts : List (List Char)} {body : List Char} (listed : Listed texts body)
      (values : ∀ text ∈ texts, IsValue text) : IsValue ('[' :: (body ++ [']']))
  | object {members : List Member} {body : List Char}
      (listed : Listed (members.map fun member => '"' :: member.body) body)
      (keys : ∀ member ∈ members, ∃ characters, Spelled false characters member.key)
      (values : ∀ member ∈ members, IsValue member.value) : IsValue ('\x7b' :: (body ++ ['\x7d']))

/-- A number without sign begins with a digit. -/
theorem Magnitude.head {text : List Char} (magnitude : Magnitude text) :
    ∃ first tail, text = first :: tail ∧ first.isDigit = true := by
  obtain @⟨whole, fraction, power, isDigits, -, -, -⟩ := magnitude
  obtain ⟨nonempty, each⟩ := isDigits
  cases whole with
  | nil => exact absurd rfl nonempty
  | cons first others => exact ⟨_, _, rfl, each first List.mem_cons_self⟩

/-- The text begins with a character that is no blank, and with none that begins a text, a list or
an object or ends a list. -/
def OpensScalar (text : List Char) : Prop :=
  ∃ first tail, text = first :: tail ∧ isBlank first = false ∧ first ∉ ['"', '[', ']', '\x7b']

theorem opensScalar_word {text : List Char} (isWord : text ∈ words) : OpensScalar text := by
  have opens : ∀ word ∈ words, OpensScalar word := by simp [words, OpensScalar, isBlank]
  exact opens text isWord

theorem opensScalar_number {text : List Char} (isNumber : IsNumber text) : OpensScalar text := by
  cases isNumber with
  | negative _ => exact ⟨_, _, rfl, rfl, by decide⟩
  | positive magnitude =>
      obtain ⟨first, tail, rfl, isDigit⟩ := magnitude.head
      refine ⟨first, tail, rfl, isBlank_of_isDigit isDigit, fun isMark => ?_⟩
      have noDigits : ∀ mark ∈ ['"', '[', ']', '\x7b'], mark.isDigit = false := by simp
      exact ne_of_isDigit isDigit (noDigits first isMark) rfl

theorem OpensScalar.opens {text : List Char} (scalar : OpensScalar text) : Opens text := by
  obtain ⟨first, tail, same, visible, noMark⟩ := scalar
  exact ⟨first, tail, same, visible, fun isClose => noMark (by simp [isClose])⟩

theorem IsValue.opens {text : List Char} (isValue : IsValue text) : Opens text := by
  cases isValue with
  | word isWord => exact (opensScalar_word isWord).opens
  | number isNumber => exact (opensScalar_number isNumber).opens
  | text _ => exact ⟨_, _, rfl, rfl, by decide⟩
  | list _ _ => exact ⟨_, _, rfl, rfl, by decide⟩
  | object _ _ _ => exact ⟨_, _, rfl, rfl, by decide⟩

/-! ### Skipping values -/

/-- What is left after the rest of the skipping. -/
def Skip.finish : Skip → Except Fault (List Char)
  | going expected around rest => skipFrom expected around rest
  | done rest => .ok rest

theorem skipFrom_eq (expected : Expected) (around : List Bracket) (text : List Char) :
    skipFrom expected around text = skipStep expected around text >>= Skip.finish := by
  rw [skipFrom]
  split
  · next failed => rw [failed]; rfl
  · next stepped => rw [stepped]; rfl
  · next stepped => rw [stepped]; rfl

theorem skipFrom_of_step {expected : Expected} {around : List Bracket} {text : List Char}
    (after : Skip) (stepped : skipStep expected around text = .ok after) :
    skipFrom expected around text = after.finish := by
  rw [skipFrom_eq, stepped]
  rfl

/-- The text is skipped as what is expected, after blanks and before a delimiter. -/
def Skips (expected : Expected) (text : List Char) : Prop :=
  ∀ (around : List Bracket) {blanks rest : List Char}, Blank blanks → Delimited rest →
    skipFrom expected around (blanks ++ (text ++ rest)) = skipFrom .separator around rest

section Brackets

variable {bracket : Bracket} {texts : List (List Char)} {body : List Char}

theorem isBlank_closing (bracket : Bracket) : isBlank bracket.closing = false := by
  cases bracket <;> rfl

theorem closing_mem (bracket : Bracket) : bracket.closing ∈ [']', '\x7d'] := by
  cases bracket <;> decide

/-- Items after the first one are skipped, and the list or object is left. -/
theorem skipFrom_continued (each : ∀ text ∈ texts, Skips bracket.content text)
    (continued : Continued texts body) (around : List Bracket) (rest : List Char) :
    skipFrom .separator (bracket :: around) (body ++ bracket.closing :: rest) =
      skipFrom .separator around rest := by
  induction continued with
  | nil blank =>
      refine skipFrom_of_step (.going .separator around rest) ?_
      rw [skipStep, skipBlanks_append_cons blank (isBlank_closing bracket)]
      dsimp only
      rw [if_pos rfl]
  | @cons before between text more texts blankBefore blankBetween later ih =>
      obtain ⟨here, others⟩ := List.forall_mem_cons.mp each
      have noClose : ',' ≠ bracket.closing := by cases bracket <;> decide
      have entered : skipFrom .separator (bracket :: around)
          (before ++ ',' :: (between ++ (text ++ more)) ++ bracket.closing :: rest) =
            skipFrom bracket.content (bracket :: around)
              (between ++ (text ++ (more ++ bracket.closing :: rest))) := by
        refine skipFrom_of_step (.going ..) ?_
        rw [skipStep, List.append_assoc, List.cons_append, skipBlanks_append_cons blankBefore rfl]
        dsimp only
        rw [if_neg noClose, if_pos rfl, List.append_assoc, List.append_assoc]
      rw [entered, here _ blankBetween (later.delimited (closing_mem bracket) rest), ih others]

/-- A list or object is skipped after its opening character. -/
theorem finish_enter (each : ∀ text ∈ texts, Skips bracket.content text)
    (opens : ∀ text ∈ texts, ∃ first tail, text = first :: tail ∧ isBlank first = false ∧
      first ≠ bracket.closing) (listed : Listed texts body) (around : List Bracket)
    (rest : List Char) :
    (enter bracket around (body ++ bracket.closing :: rest)).finish =
      skipFrom .separator around rest := by
  cases listed with
  | nil blank =>
      rw [enter, skipBlanks_append_cons blank (isBlank_closing bracket)]
      dsimp only
      rw [if_pos rfl, Skip.finish]
  | @cons before text more texts blankBefore continued =>
      obtain ⟨here, others⟩ := List.forall_mem_cons.mp each
      obtain ⟨first, tail, rfl, visible, noClose⟩ := opens text List.mem_cons_self
      have skipped := here (bracket :: around) blank_nil
        (continued.delimited (closing_mem bracket) rest)
      rw [enter, List.append_assoc, List.append_assoc, List.cons_append,
        skipBlanks_append_cons blankBefore visible]
      dsimp only
      rw [if_neg noClose, Skip.finish]
      exact skipped.trans (skipFrom_continued others continued around rest)

end Brackets

theorem word_append (expected rest : List Char) : word expected (expected ++ rest) = .ok rest := by
  induction expected with
  | nil => rfl
  | cons character others ih => rw [List.cons_append, word, if_pos rfl, ih]

/-- Scalars are skipped by their readers. -/
theorem skips_of_skipScalar {first : Char} {tail : List Char} (visible : isBlank first = false)
    (noList : first ≠ '[') (noObject : first ≠ '\x7b')
    (skipped : ∀ rest, Delimited rest → skipScalar (first :: (tail ++ rest)) = .ok rest) :
    Skips .value (first :: tail) := by
  intro around blanks rest blank delimited
  refine skipFrom_of_step (.going .separator around rest) ?_
  rw [skipStep, List.cons_append, skipBlanks_append_cons blank visible]
  split
  · next isList => exact absurd (List.cons.inj isList).1 noList
  · next isObject => exact absurd (List.cons.inj isObject).1 noObject
  · exact Outcome.map_eq_ok.mpr ⟨rest, skipped rest delimited, rfl⟩

theorem skips_word {text : List Char} (isWord : text ∈ words) : Skips .value text := by
  simp only [words, List.mem_cons, List.not_mem_nil, or_false] at isWord
  rcases isWord with rfl | rfl | rfl
  · exact skips_of_skipScalar rfl (by decide) (by decide)
      fun rest _ => word_append ['u', 'l', 'l'] rest
  · exact skips_of_skipScalar rfl (by decide) (by decide)
      fun rest _ => word_append ['r', 'u', 'e'] rest
  · exact skips_of_skipScalar rfl (by decide) (by decide)
      fun rest _ => word_append ['a', 'l', 's', 'e'] rest

theorem skips_number {text : List Char} (isNumber : IsNumber text) : Skips .value text := by
  cases isNumber with
  | negative magnitude =>
      exact skips_of_skipScalar rfl (by decide) (by decide)
        fun rest delimited => skipNumber_append magnitude delimited
  | positive magnitude =>
      obtain ⟨first, tail, rfl, isDigit⟩ := magnitude.head
      have apart : ∀ other : Char, other.isDigit = false → first ≠ other :=
        fun _ => ne_of_isDigit isDigit
      refine skips_of_skipScalar (isBlank_of_isDigit isDigit) (apart '[' rfl)
        (apart '\x7b' rfl) fun rest delimited => ?_
      rw [skipScalar, if_neg (apart 'n' rfl), if_neg (apart 't' rfl), if_neg (apart 'f' rfl),
        if_neg (apart '-' rfl), if_pos isDigit]
      exact skipNumber_append magnitude delimited

theorem skips_text {characters body : List Char} (spelled : Spelled false characters body) :
    Skips .value ('"' :: (body ++ ['"'])) := by
  refine skips_of_skipScalar rfl (by decide) (by decide) fun rest _ => ?_
  rw [List.append_assoc]
  exact Outcome.map_eq_ok.mpr ⟨_, textBody_append spelled rest, rfl⟩

/-- A key with its colon and its value is skipped. -/
theorem skips_member {member : Member} {characters : List Char}
    (spelled : Spelled false characters member.key) (value : Skips .value member.value) :
    Skips .key ('"' :: member.body) := by
  intro around blanks rest blank delimited
  have named := textBody_append spelled
    (member.before ++ ':' :: (member.between ++ (member.value ++ rest)))
  have marked := colon_append member.blankBefore (member.between ++ (member.value ++ rest))
  refine (skipFrom_of_step (.going .value around _) ?_).trans
    (value around member.blankBetween delimited)
  rw [skipStep, List.cons_append, skipBlanks_append_cons blank rfl, member.body_append]
  exact Outcome.bind_eq_ok.mpr ⟨_, named, Outcome.bind_eq_ok.mpr ⟨_, marked, rfl⟩⟩

/-- Every value is skipped, to any depth. -/
theorem IsValue.skips {text : List Char} (isValue : IsValue text) : Skips .value text := by
  induction isValue with
  | word isWord => exact skips_word isWord
  | number isNumber => exact skips_number isNumber
  | text spelled => exact skips_text spelled
  | @list texts body listed values ih =>
      intro around blanks rest blank delimited
      have opens := fun text isItem => (values text isItem).opens
      refine (skipFrom_of_step (enter .list around (body ++ ']' :: rest)) ?_).trans
        (@finish_enter .list _ _ ih opens listed around rest)
      rw [skipStep, List.cons_append, skipBlanks_append_cons blank rfl, List.append_assoc]
      rfl
  | @object members body listed keys values ih =>
      intro around blanks rest blank delimited
      refine (skipFrom_of_step (enter .object around (body ++ '\x7d' :: rest)) ?_).trans
        (finish_enter ?_ ?_ listed around rest)
      · rw [skipStep, List.cons_append, skipBlanks_append_cons blank rfl, List.append_assoc]
        rfl
      · intro text isText
        obtain ⟨member, isMember, rfl⟩ := List.mem_map.mp isText
        obtain ⟨characters, spelled⟩ := keys member isMember
        exact skips_member spelled (ih member isMember)
      · intro text isText
        obtain ⟨member, isMember, rfl⟩ := List.mem_map.mp isText
        exact ⟨_, _, rfl, rfl, by decide⟩

/-- The text after a value is left when the value is skipped. -/
theorem skipValue_append {text : List Char} (isValue : IsValue text) {blanks rest : List Char}
    (blank : Blank blanks) (delimited : Delimited rest) :
    skipValue (blanks ++ (text ++ rest)) = .ok rest :=
  (isValue.skips [] blank delimited).trans (skipFrom_of_step (.done rest) rfl)

/-! ### Wanted texts -/

theorem readKey_append {name : String} {key : List Char} (spelled : Spelled true name.toList key)
    (rest : List Char) : readKey (key ++ '"' :: rest) = .ok (name, rest) := by
  refine Outcome.bind_eq_ok.mpr ⟨_, textBody_append spelled rest, ?_⟩
  show Except.ok (String.ofList name.toList, rest) = _
  rw [String.ofList_toList]

/-- A text in its quotes. -/
def IsText (meant : String) (text : List Char) : Prop :=
  ∃ body, text = '"' :: (body ++ ['"']) ∧ Spelled true meant.toList body

theorem isText_quote (text : String) : IsText text (quote text) :=
  ⟨_, rfl, spelled_flatMap_escape text.toList⟩

theorem IsText.isValue {meant : String} {text : List Char} (isText : IsText meant text) :
    IsValue text := by
  obtain ⟨body, rfl, spelled⟩ := isText
  obtain ⟨others, loose⟩ := spelled.loose
  exact .text loose

theorem readText_append {meant : String} {text : List Char} (isText : IsText meant text)
    {blanks : List Char} (blank : Blank blanks) (rest : List Char) :
    readText (blanks ++ (text ++ rest)) = .ok (meant, rest) := by
  obtain ⟨body, rfl, spelled⟩ := isText
  rw [readText, List.cons_append, skipBlanks_append_cons blank rfl, List.append_assoc]
  exact readKey_append spelled rest

/-- A key that may be skipped is read, or reading it fails. -/
theorem readKey_of_loose {characters key : List Char} (loose : Spelled false characters key) :
    (∃ name : String, Spelled true name.toList key) ∨
      ∀ rest, ∃ fault, readKey (key ++ '"' :: rest) = .error fault := by
  rcases textBody_of_loose loose with ⟨meant, spelled⟩ | fails
  · refine Or.inl ⟨String.ofList meant, ?_⟩
    rw [String.toList_ofList]
    exact spelled
  · refine Or.inr fun rest => ?_
    obtain ⟨fault, failed⟩ := fails rest
    exact ⟨fault, Outcome.bind_eq_error.mpr (Or.inl failed)⟩

/-- Another value than the one wanted is never taken for it. -/
theorem refuse_eq_error {α : Type} (text : List Char) :
    ∃ fault, (refuse text : Except Fault α) = .error fault := by
  have fails : ∀ {β : Type} (first : Except Fault β), ∃ fault,
      (first >>= fun _ => (.error .mismatch : Except Fault α)) = .error fault := by
    intro β first
    cases first with
    | error fault => exact ⟨fault, rfl⟩
    | ok value => exact ⟨.mismatch, rfl⟩
  unfold refuse
  split
  · exact ⟨_, rfl⟩
  · iterate 6
      split
      · exact fails _
    split
    · exact ⟨_, rfl⟩
    · exact ⟨_, rfl⟩

/-- A reader of values that begin with a mark fails at words and numbers. -/
theorem OpensScalar.refused {α : Type} {reader : Reader α} {mark : Char} {blanks text : List Char}
    (scalar : OpensScalar text) (isMark : mark ∈ ['"', '[', ']', '\x7b'])
    (refuses : ∀ first tail, isBlank first = false → first ≠ mark →
      ∃ fault, reader (blanks ++ first :: tail) = .error fault) (rest : List Char) :
    ∃ fault, reader (blanks ++ (text ++ rest)) = .error fault := by
  obtain ⟨first, tail, rfl, visible, noMark⟩ := scalar
  exact refuses first (tail ++ rest) visible fun same => noMark (same ▸ isMark)

/-- A value is read as a text, or reading it fails. -/
theorem readText_of_isValue {text blanks : List Char} (isValue : IsValue text)
    (blank : Blank blanks) : (∃ meant, IsText meant text) ∨
      ∀ rest, ∃ fault, readText (blanks ++ (text ++ rest)) = .error fault := by
  have other : ∀ first tail, isBlank first = false → first ≠ '"' →
      ∃ fault, readText (blanks ++ first :: tail) = .error fault := by
    intro first tail visible noQuote
    rw [readText, skipBlanks_append_cons blank visible]
    split
    · next isQuote => exact absurd (List.cons.inj isQuote).1 noQuote
    · exact refuse_eq_error _
  cases isValue with
  | word isWord => exact Or.inr ((opensScalar_word isWord).refused (by decide) other)
  | number isNumber => exact Or.inr ((opensScalar_number isNumber).refused (by decide) other)
  | @text characters body spelled =>
      rcases readKey_of_loose spelled with ⟨meant, strict⟩ | fails
      · exact Or.inl ⟨meant, body, rfl, strict⟩
      · refine Or.inr fun rest => ?_
        rw [readText, List.cons_append, skipBlanks_append_cons blank rfl, List.append_assoc]
        exact fails rest
  | list _ _ => exact Or.inr fun rest => other _ _ rfl (by decide)
  | object _ _ _ => exact Or.inr fun rest => other _ _ rfl (by decide)

end OpGraph.Json
