import OpGraph.Json.Value
import OpGraph.Outcome

/-!
# Reading data in exchange form

Readers consume the beginning of a text.  They are driven by the kind of value that is wanted, and
the first problem that they meet decides: the text ends too early, it is not in the format, or it
is in the format so far but holds something else than what is wanted.

A text that nobody wants is read all the same, but it may hold unpaired surrogate escapes.
-/

namespace OpGraph.Json

/-- Why a text could not be read. -/
inductive Fault where
  /-- The text ends too early. -/
  | truncated
  /-- The text holds another value than the one wanted. -/
  | mismatch
  /-- The text is not in the format. -/
  | malformed
deriving DecidableEq, Repr

/-- A reader yields a value and the text after it. -/
abbrev Reader (α : Type) := List Char → Except Fault (α × List Char)

/-- The characters that may stand between the parts of a value. -/
def isBlank (character : Char) : Bool :=
  character == ' ' || character == '\n' || character == '\t' || character == '\r'

/-- The text from its first character that is no blank. -/
def skipBlanks (text : List Char) : List Char :=
  text.dropWhile isBlank

/-! ### Texts -/

/-- The value of a hexadecimal digit. -/
def hexDigit? (character : Char) : Option Nat :=
  if '0' ≤ character ∧ character ≤ '9' then some (character.toNat - '0'.toNat)
  else if 'a' ≤ character ∧ character ≤ 'f' then some (character.toNat - 'a'.toNat + 10)
  else if 'A' ≤ character ∧ character ≤ 'F' then some (character.toNat - 'A'.toNat + 10)
  else none

/-- The number of bytes of a text in UTF-8. -/
def byteLength (text : List Char) : Nat :=
  (text.map Char.utf8Size).foldr (· + ·) 0

/-- Four hexadecimal digits; the text is too short if it has fewer than four bytes. -/
def hexUnit : Reader Nat
  | a :: b :: c :: d :: rest =>
    match hexDigit? a, hexDigit? b, hexDigit? c, hexDigit? d with
    | some w, some x, some y, some z => .ok (((w * 16 + x) * 16 + y) * 16 + z, rest)
    | _, _, _, _ => .error .malformed
  | short => .error (if byteLength short < 4 then .truncated else .malformed)

/-- The second half of a surrogate pair, after its first half. -/
def lowSurrogate (high : Nat) : Reader Char
  | [] => .error .truncated
  | '\\' :: [] => .error .truncated
  | '\\' :: 'u' :: rest => do
    let (low, rest) ← hexUnit rest
    if 0xDC00 ≤ low ∧ low ≤ 0xDFFF then
      .ok (Char.ofNat (0x10000 + (high - 0xD800) * 0x400 + (low - 0xDC00)), rest)
    else
      .error .malformed
  | _ => .error .malformed

/-- The character of an escape by code.  In a kept text, surrogates must come in pairs; in a skipped
text any code will do. -/
def codeEscape (kept : Bool) : Reader Char := fun text => do
  let (code, rest) ← hexUnit text
  if !kept then .ok ('\ufffd', rest)
  else if 0xD800 ≤ code ∧ code ≤ 0xDBFF then lowSurrogate code rest
  else if 0xDC00 ≤ code ∧ code ≤ 0xDFFF then .error .malformed
  else .ok (Char.ofNat code, rest)

/-- The character of an escape, after the backslash. -/
def escaped (kept : Bool) : Reader Char
  | [] => .error .truncated
  | character :: rest =>
    match character with
    | '"' => .ok ('"', rest)
    | '\\' => .ok ('\\', rest)
    | '/' => .ok ('/', rest)
    | 'b' => .ok ('\x08', rest)
    | 'f' => .ok ('\x0c', rest)
    | 'n' => .ok ('\n', rest)
    | 'r' => .ok ('\r', rest)
    | 't' => .ok ('\t', rest)
    | 'u' => codeEscape kept rest
    | _ => .error .malformed

theorem hexUnit_length {text rest : List Char} {code : Nat}
    (read : hexUnit text = .ok (code, rest)) : rest.length < text.length := by
  unfold hexUnit at read
  split at read
  · split at read
    · simp only [Except.ok.injEq, Prod.mk.injEq] at read
      simp only [← read.2, List.length_cons]
      omega
    · simp at read
  · simp at read

theorem lowSurrogate_length {high : Nat} {text rest : List Char} {character : Char}
    (read : lowSurrogate high text = .ok (character, rest)) : rest.length < text.length := by
  unfold lowSurrogate at read
  split at read
  · simp at read
  · simp at read
  · next tail =>
    obtain ⟨⟨low, after⟩, unit, outcome⟩ := Outcome.bind_eq_ok.mp read
    have shorter := hexUnit_length unit
    dsimp only at outcome
    split at outcome
    · rw [← (Prod.mk.inj (Except.ok.inj outcome)).2]
      simp only [List.length_cons]
      omega
    · cases outcome
  · simp at read

theorem codeEscape_length {kept : Bool} {text rest : List Char} {character : Char}
    (read : codeEscape kept text = .ok (character, rest)) : rest.length < text.length := by
  unfold codeEscape at read
  obtain ⟨⟨code, after⟩, unit, outcome⟩ := Outcome.bind_eq_ok.mp read
  have shorter := hexUnit_length unit
  dsimp only at outcome
  split at outcome
  · rw [← (Prod.mk.inj (Except.ok.inj outcome)).2]
    exact shorter
  · split at outcome
    · exact Nat.lt_trans (lowSurrogate_length outcome) shorter
    · split at outcome
      · cases outcome
      · rw [← (Prod.mk.inj (Except.ok.inj outcome)).2]
        exact shorter

theorem escaped_length {kept : Bool} {text rest : List Char} {character : Char}
    (read : escaped kept text = .ok (character, rest)) : rest.length < text.length := by
  unfold escaped at read
  split at read
  · simp at read
  · split at read <;>
      first
      | (simp only [Except.ok.injEq, Prod.mk.injEq] at read
         simp [← read.2])
      | exact Nat.lt_succ_of_lt (codeEscape_length read)
      | simp at read

/-- The characters of a text up to its closing quote, which is consumed. -/
def textBody (kept : Bool) (text : List Char) : Except Fault (List Char × List Char) :=
  match text with
  | [] => .error .truncated
  | character :: rest =>
    if character = '"' then .ok ([], rest)
    else if character = '\\' then
      match _read : escaped kept rest with
      | .error fault => .error fault
      | .ok (meant, after) => do
        let (others, after) ← textBody kept after
        return (meant :: others, after)
    else if character.toNat < 0x20 then .error .malformed
    else do
      let (others, after) ← textBody kept rest
      return (character :: others, after)
termination_by text.length
decreasing_by
  · exact Nat.lt_succ_of_lt (escaped_length _read)
  · simp

/-! ### Numbers -/

/-- A number that is wanted: an integer of 64 bits, with or without sign, or a double. -/
inductive Number where
  /-- An integer. -/
  | integer (value : Int)
  /-- A double. -/
  | double (value : Float)

/-- The value of a decimal digit. -/
def digitValue (character : Char) : Nat :=
  character.toNat - '0'.toNat

/-- Append digits to a 64-bit significand while they fit; the digits left over are returned. -/
def absorb (significand : Nat) : List Char → Nat × List Char
  | [] => (significand, [])
  | digit :: rest =>
    let extended := significand * 10 + digitValue digit
    if extended < Nat.pow 2 64 then absorb extended rest else (significand, digit :: rest)

/-- A power of ten as a double. -/
def powerOfTen (exponent : Nat) : Float :=
  Float.ofScientific 1 false exponent

/-- Divide by a power of ten, in portions that are doubles themselves. -/
def scaleDown (exponent : Nat) (value : Float) : Float :=
  if exponent ≤ 308 then value / powerOfTen exponent
  else if value == 0 then value
  else scaleDown (exponent - 308) (value / powerOfTen 308)
termination_by exponent

/-- The double of a significand and a power of ten, or a fault if it is too large. -/
def scaled (negative : Bool) (significand : Nat) (exponent : Int) : Except Fault Float :=
  let start := significand.toUInt64.toFloat
  let magnitude : Except Fault Float :=
    if exponent < 0 then .ok (scaleDown exponent.natAbs start)
    else if exponent ≤ 308 then
      let value := start * powerOfTen exponent.toNat
      if value.isInf then .error .malformed else .ok value
    else if start == 0 then .ok start
    else .error .malformed
  magnitude.map fun value => if negative then -value else value

/-- The power of ten after its mark, and the double that it completes. -/
def exponentPart (negative : Bool) (significand : Nat) (exponent : Int) : Reader Number :=
  fun text =>
    let (falling, digits) : Bool × List Char :=
      match text with
      | '+' :: rest => (false, rest)
      | '-' :: rest => (true, rest)
      | other => (false, other)
    match digits with
    | [] => .error .truncated
    | first :: _ =>
      if first.isDigit then do
        let shift := (digits.takeWhile Char.isDigit).foldl (fun n d => n * 10 + digitValue d) 0
        let total := if falling then exponent - shift else exponent + shift
        let value ← scaled negative significand total
        return (.double value, digits.dropWhile Char.isDigit)
      else
        .error .malformed

/-- The rest of a number after its digits: perhaps a power of ten. -/
def afterDigits (negative : Bool) (significand : Nat) (exponent : Int) : Reader Number :=
  fun text =>
    match text with
    | 'e' :: rest => exponentPart negative significand exponent rest
    | 'E' :: rest => exponentPart negative significand exponent rest
    | other => do
      let value ← scaled negative significand exponent
      return (.double value, other)

/-- The fraction of a number after its point.  Digits beyond the 64-bit significand are dropped. -/
def fractionPart (negative : Bool) (significand : Nat) (exponent : Int) : Reader Number :=
  fun text =>
    let digits := text.takeWhile Char.isDigit
    let rest := text.dropWhile Char.isDigit
    match digits, rest with
    | [], [] => .error .truncated
    | [], _ :: _ => .error .malformed
    | _ :: _, _ =>
      let (extended, dropped) := absorb significand digits
      let kept := digits.length - dropped.length
      afterDigits negative extended (exponent - kept) rest

/-- An integer whose digits all fit, or the double nearest to it if its sign or size needs one. -/
def integerNumber (negative : Bool) (significand : Nat) : Number :=
  if !negative then .integer significand
  else if 0 < significand ∧ significand ≤ Nat.pow 2 63 then .integer (-(significand : Int))
  else .double (-significand.toUInt64.toFloat)

/-- A number without its sign.  The first digit of several is not zero. -/
def unsignedNumber (negative : Bool) : Reader Number := fun text =>
  match text with
  | [] => .error .truncated
  | first :: rest =>
    if !first.isDigit then .error .malformed
    else if first = '0' ∧ (rest.head?.elim false Char.isDigit) then .error .malformed
    else
      let digits := text.takeWhile Char.isDigit
      let after := text.dropWhile Char.isDigit
      let (significand, dropped) := absorb 0 digits
      match after with
      | '.' :: fraction => fractionPart negative significand dropped.length fraction
      | 'e' :: power => exponentPart negative significand dropped.length power
      | 'E' :: power => exponentPart negative significand dropped.length power
      | other =>
        if dropped.isEmpty then .ok (integerNumber negative significand, other)
        else do
          let value ← scaled negative significand dropped.length
          return (.double value, other)

/-! ### Words, lists and objects -/

/-- The rest of a word. -/
def word : List Char → List Char → Except Fault (List Char)
  | [], text => .ok text
  | _ :: _, [] => .error .truncated
  | expected :: others, character :: rest =>
    if character = expected then word others rest else .error .malformed

/-- The colon after a key. -/
def colon (text : List Char) : Except Fault (List Char) :=
  match skipBlanks text with
  | [] => .error .truncated
  | ':' :: rest => .ok rest
  | _ :: _ => .error .malformed

/-- The items of a list from the given state on, up to the closing bracket, which is consumed.
The bound on the number of items is the length of the text. -/
def itemsFrom {σ : Type} (item : σ → Reader σ) : Nat → Bool → σ → Reader σ
  | 0, _, _, _ => .error .truncated
  | bound + 1, first, state, text =>
    match skipBlanks text with
    | [] => .error .truncated
    | character :: rest =>
      if character = ']' then .ok (state, rest)
      else if first then do
        let (state, after) ← item state (character :: rest)
        itemsFrom item bound false state after
      else if character = ',' then
        match skipBlanks rest with
        | [] => .error .truncated
        | ']' :: _ => .error .malformed
        | next => do
          let (state, after) ← item state next
          itemsFrom item bound false state after
      else .error .malformed

/-- The items of a list after its opening bracket. -/
def items {σ : Type} (item : σ → Reader σ) (state : σ) : Reader σ := fun text =>
  itemsFrom item (text.length + 1) true state text

/-- The entries of an object from the given state on, up to the closing brace, which is consumed.
Each entry is read by `entry` from its key on, after the opening quote. -/
def entriesFrom {σ : Type} (entry : σ → Reader σ) : Nat → Bool → σ → Reader σ
  | 0, _, _, _ => .error .truncated
  | bound + 1, first, state, text =>
    match skipBlanks text with
    | [] => .error .truncated
    | character :: rest =>
      if character = '\x7d' then .ok (state, rest)
      else if first then
        if character = '"' then do
          let (state, after) ← entry state rest
          entriesFrom entry bound false state after
        else .error .malformed
      else if character = ',' then
        match skipBlanks rest with
        | [] => .error .truncated
        | '"' :: key => do
          let (state, after) ← entry state key
          entriesFrom entry bound false state after
        | _ :: _ => .error .malformed
      else .error .malformed

/-- The entries of an object after its opening brace. -/
def entries {σ : Type} (entry : σ → Reader σ) (state : σ) : Reader σ := fun text =>
  entriesFrom entry (text.length + 1) true state text

/-- Report the value at the beginning of a text, which has no blanks before it, as another one than
the one wanted.  A value that is neither list nor object is read first, and a problem in it
decides. -/
def refuse {α : Type} (text : List Char) : Except Fault α :=
  match text with
  | [] => .error .truncated
  | character :: rest =>
    if character = 'n' then do
      let _ ← word ['u', 'l', 'l'] rest
      .error .mismatch
    else if character = 't' then do
      let _ ← word ['r', 'u', 'e'] rest
      .error .mismatch
    else if character = 'f' then do
      let _ ← word ['a', 'l', 's', 'e'] rest
      .error .mismatch
    else if character = '-' then do
      let _ ← unsignedNumber true rest
      .error .mismatch
    else if character.isDigit then do
      let _ ← unsignedNumber false text
      .error .mismatch
    else if character = '"' then do
      let _ ← textBody true rest
      .error .mismatch
    else if character = '[' ∨ character = '\x7b' then .error .mismatch
    else .error .malformed

/-- A wanted text. -/
def readText : Reader String := fun text =>
  match skipBlanks text with
  | '"' :: rest => do
    let (characters, after) ← textBody true rest
    return (String.ofList characters, after)
  | other => refuse other

/-- A wanted key, after its opening quote. -/
def readKey : Reader String := fun text => do
  let (characters, after) ← textBody true text
  return (String.ofList characters, after)

/-- A wanted key with its quotes, before which there may be blanks. -/
def readQuotedKey : Reader String := fun text =>
  match skipBlanks text with
  | [] => .error .truncated
  | '"' :: rest => readKey rest
  | _ :: _ => .error .malformed

/-- A wanted number. -/
def readNumber : Reader Number := fun text =>
  match skipBlanks text with
  | [] => .error .truncated
  | character :: rest =>
    if character = '-' then unsignedNumber true rest
    else if character.isDigit then unsignedNumber false (character :: rest)
    else refuse (character :: rest)

/-- A wanted truth value. -/
def readBool : Reader Bool := fun text =>
  match skipBlanks text with
  | 't' :: rest => do return (true, ← word ['r', 'u', 'e'] rest)
  | 'f' :: rest => do return (false, ← word ['a', 'l', 's', 'e'] rest)
  | other => refuse other

/-- The wanted absent value. -/
def readNull : Reader Unit := fun text =>
  match skipBlanks text with
  | 'n' :: rest => do return ((), ← word ['u', 'l', 'l'] rest)
  | other => refuse other

/-- A whole text that holds one value and blanks. -/
def readWhole {α : Type} (reader : Reader α) (text : String) : Except Fault α := do
  let (value, rest) ← reader text.toList
  match skipBlanks rest with
  | [] => return value
  | _ :: _ => throw .malformed

end OpGraph.Json
