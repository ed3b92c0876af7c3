import OpGraph.Json.Reader

/-!
# Skipping values

A value that nobody wants is skipped.  It must be in the format, but its texts may hold unpaired
surrogate escapes, its numbers may be of any size, and lists and objects may be nested to any
depth.

Skipping is a machine that remembers the lists and objects entered and not left.  Every step
consumes a character, so `skipFrom` ends.
-/

namespace OpGraph.Json

/-! ### Numbers and words -/

/-- Skip one or more digits. -/
def skipDigits (text : List Char) : Except Fault (List Char) :=
  match text with
  | [] => .error .malformed
  | first :: _ =>
    if first.isDigit then .ok (text.dropWhile Char.isDigit) else .error .malformed

/-- Skip a power of ten after its mark. -/
def skipExponent : List Char → Except Fault (List Char)
  | '+' :: rest => skipDigits rest
  | '-' :: rest => skipDigits rest
  | other => skipDigits other

/-- Skip a power of ten, if there is one. -/
def skipPower : List Char → Except Fault (List Char)
  | 'e' :: rest => skipExponent rest
  | 'E' :: rest => skipExponent rest
  | other => .ok other

/-- Skip a number without its sign.  The first digit of several is not zero. -/
def skipNumber (text : List Char) : Except Fault (List Char) :=
  if text.head? = some '0' ∧ (text.tail.head?.elim false Char.isDigit) then .error .malformed
  else do
    match ← skipDigits text with
    | '.' :: fraction => skipPower (← skipDigits fraction)
    | other => skipPower other

/-- Skip a text, a number or a word. -/
def skipScalar (text : List Char) : Except Fault (List Char) :=
  match text with
  | [] => .error .truncated
  | character :: rest =>
    if character = 'n' then word ['u', 'l', 'l'] rest
    else if character = 't' then word ['r', 'u', 'e'] rest
    else if character = 'f' then word ['a', 'l', 's', 'e'] rest
    else if character = '-' then skipNumber rest
    else if character.isDigit then skipNumber (character :: rest)
    else if character = '"' then Prod.snd <$> textBody false rest
    else .error .malformed

/-! ### Lists and objects -/

/-- The kind of a list or an object that has been entered and not left. -/
inductive Bracket where
  /-- A list. -/
  | list
  /-- An object. -/
  | object
deriving DecidableEq, Repr

/-- What comes next in a value that is skipped. -/
inductive Expected where
  /-- A value. -/
  | value
  /-- A key with its colon. -/
  | key
  /-- The character after a value: a comma or a closing one. -/
  | separator
deriving DecidableEq, Repr

namespace Bracket

/-- The character that closes the list or object. -/
def closing : Bracket → Char
  | list => ']'
  | object => '\x7d'

/-- What an item of the list or an entry of the object begins with. -/
def content : Bracket → Expected
  | list => .value
  | object => .key

end Bracket

/-- The state of skipping after a step. -/
inductive Skip where
  /-- There is more to skip, within the given lists and objects, the innermost first. -/
  | going (expected : Expected) (around : List Bracket) (rest : List Char)
  /-- The value has been skipped. -/
  | done (rest : List Char)

/-- Enter a list or object after its opening character; an empty one is left at once. -/
def enter (bracket : Bracket) (around : List Bracket) (text : List Char) : Skip :=
  match skipBlanks text with
  | [] => .going bracket.content (bracket :: around) []
  | character :: rest =>
    if character = bracket.closing then .going .separator around rest
    else .going bracket.content (bracket :: around) (character :: rest)

/-- Skip the next part of a value within the given lists and objects. -/
def skipStep (expected : Expected) (around : List Bracket) (text : List Char) :
    Except Fault Skip :=
  match expected with
  | .value =>
    match skipBlanks text with
    | '[' :: rest => .ok (enter .list around rest)
    | '\x7b' :: rest => .ok (enter .object around rest)
    | scalar => Skip.going .separator around <$> skipScalar scalar
  | .key =>
    match skipBlanks text with
    | [] => .error .truncated
    | '"' :: rest => do
      let (_, after) ← textBody false rest
      return .going .value around (← colon after)
    | _ :: _ => .error .malformed
  | .separator =>
    match around with
    | [] => .ok (.done text)
    | bracket :: outer =>
      match skipBlanks text with
      | [] => .error .truncated
      | character :: rest =>
        if character = bracket.closing then .ok (.going .separator outer rest)
        else if character = ',' then .ok (.going bracket.content around rest)
        else .error .malformed

/-! ### Termination -/

theorem length_skipBlanks_le (text : List Char) : (skipBlanks text).length ≤ text.length :=
  (List.dropWhile_sublist isBlank).length_le

theorem length_word_le {expected text rest : List Char} (read : word expected text = .ok rest) :
    rest.length ≤ text.length := by
  induction expected generalizing text with
  | nil =>
    obtain rfl := Except.ok.inj read
    exact Nat.le_refl _
  | cons character others ih =>
    cases text with
    | nil => cases read
    | cons next later =>
      simp only [word] at read
      split at read
      · exact Nat.le_succ_of_le (ih read)
      · cases read

theorem length_textBody_lt {kept : Bool} {text characters rest : List Char}
    (read : textBody kept text = .ok (characters, rest)) : rest.length < text.length := by
  fun_induction textBody kept text generalizing characters rest with
  | case1 => cases read
  | case2 =>
    rw [← (Prod.mk.inj (Except.ok.inj read)).2]
    exact Nat.lt_succ_self _
  | case3 => cases read
  | case4 later meant after escape _ ih =>
    obtain ⟨⟨others, left⟩, inner, same⟩ := Outcome.bind_eq_ok.mp read
    rw [← (Prod.mk.inj (Except.ok.inj same)).2]
    have shorter := ih inner
    have escapeShorter := escaped_length escape
    simp only [List.length_cons]
    omega
  | case5 => cases read
  | case6 character later _ _ _ ih =>
    obtain ⟨⟨others, left⟩, inner, same⟩ := Outcome.bind_eq_ok.mp read
    rw [← (Prod.mk.inj (Except.ok.inj same)).2]
    exact Nat.lt_succ_of_lt (ih inner)

theorem length_colon_lt {text rest : List Char} (read : colon text = .ok rest) :
    rest.length < text.length := by
  have blanks := length_skipBlanks_le text
  unfold colon at read
  split at read
  · cases read
  · next found =>
    obtain rfl := Except.ok.inj read
    rw [found] at blanks
    exact blanks
  · cases read

theorem length_skipDigits_lt {text rest : List Char} (read : skipDigits text = .ok rest) :
    rest.length < text.length := by
  unfold skipDigits at read
  split at read
  · cases read
  · next first later =>
    split at read
    · next isDigit =>
      obtain rfl := Except.ok.inj read
      rw [List.dropWhile_cons_of_pos isDigit]
      exact Nat.lt_succ_of_le (List.dropWhile_sublist Char.isDigit).length_le
    · cases read

theorem length_skipExponent_lt {text rest : List Char} (read : skipExponent text = .ok rest) :
    rest.length < text.length := by
  unfold skipExponent at read
  split at read
  · exact Nat.lt_succ_of_lt (length_skipDigits_lt read)
  · exact Nat.lt_succ_of_lt (length_skipDigits_lt read)
  · exact length_skipDigits_lt read

theorem length_skipPower_le {text rest : List Char} (read : skipPower text = .ok rest) :
    rest.length ≤ text.length := by
  unfold skipPower at read
  split at read
  · exact Nat.le_succ_of_le (Nat.le_of_lt (length_skipExponent_lt read))
  · exact Nat.le_succ_of_le (Nat.le_of_lt (length_skipExponent_lt read))
  · obtain rfl := Except.ok.inj read
    exact Nat.le_refl _

theorem length_skipNumber_lt {text rest : List Char} (read : skipNumber text = .ok rest) :
    rest.length < text.length := by
  unfold skipNumber at read
  split at read
  · cases read
  · obtain ⟨whole, digits, later⟩ := Outcome.bind_eq_ok.mp read
    have shorter := length_skipDigits_lt digits
    split at later
    · obtain ⟨fraction, fractionDigits, power⟩ := Outcome.bind_eq_ok.mp later
      have fractionShorter := length_skipDigits_lt fractionDigits
      have powerShorter := length_skipPower_le power
      simp only [List.length_cons] at shorter
      omega
    · exact Nat.lt_of_le_of_lt (length_skipPower_le later) shorter

theorem length_skipScalar_lt {text rest : List Char} (read : skipScalar text = .ok rest) :
    rest.length < text.length := by
  unfold skipScalar at read
  split at read
  · cases read
  · split at read
    · exact Nat.lt_succ_of_le (length_word_le read)
    · split at read
      · exact Nat.lt_succ_of_le (length_word_le read)
      · split at read
        · exact Nat.lt_succ_of_le (length_word_le read)
        · split at read
          · exact Nat.lt_succ_of_lt (length_skipNumber_lt read)
          · split at read
            · exact length_skipNumber_lt read
            · split at read
              · obtain ⟨⟨characters, after⟩, body, same⟩ := Outcome.map_eq_ok.mp read
                obtain rfl := same
                exact Nat.lt_succ_of_lt (length_textBody_lt body)
              · cases read

theorem length_enter_le {bracket : Bracket} {around inner : List Bracket} {expected : Expected}
    {text rest : List Char} (entered : enter bracket around text = .going expected inner rest) :
    rest.length ≤ text.length := by
  have blanks := length_skipBlanks_le text
  unfold enter at entered
  split at entered
  · rw [← (Skip.going.inj entered).2.2]
    exact Nat.zero_le _
  · next found =>
    rw [found] at blanks
    split at entered
    · rw [← (Skip.going.inj entered).2.2]
      exact Nat.le_of_succ_le blanks
    · rw [← (Skip.going.inj entered).2.2]
      exact blanks

/-- Every step consumes a character. -/
theorem length_skipStep_lt {expected next : Expected} {around inner : List Bracket}
    {text rest : List Char}
    (stepped : skipStep expected around text = .ok (.going next inner rest)) :
    rest.length < text.length := by
  have blanks := length_skipBlanks_le text
  unfold skipStep at stepped
  split at stepped
  · split at stepped
    · next found =>
      rw [found] at blanks
      exact Nat.lt_of_lt_of_le
        (Nat.lt_succ_of_le (length_enter_le (Except.ok.inj stepped))) blanks
    · next found =>
      rw [found] at blanks
      exact Nat.lt_of_lt_of_le
        (Nat.lt_succ_of_le (length_enter_le (Except.ok.inj stepped))) blanks
    · obtain ⟨after, skipped, same⟩ := Outcome.map_eq_ok.mp stepped
      rw [← (Skip.going.inj same).2.2]
      exact Nat.lt_of_lt_of_le (length_skipScalar_lt skipped) blanks
  · split at stepped
    · cases stepped
    · next found =>
      rw [found] at blanks
      obtain ⟨⟨characters, after⟩, body, later⟩ := Outcome.bind_eq_ok.mp stepped
      obtain ⟨value, mark, same⟩ := Outcome.bind_eq_ok.mp later
      rw [← (Skip.going.inj (Except.ok.inj same)).2.2]
      have bodyShorter := length_textBody_lt body
      have markShorter := length_colon_lt mark
      simp only [List.length_cons] at blanks
      omega
    · cases stepped
  · split at stepped
    · cases Except.ok.inj stepped
    · split at stepped
      · cases stepped
      · next found =>
        rw [found] at blanks
        split at stepped
        · rw [← (Skip.going.inj (Except.ok.inj stepped)).2.2]
          exact blanks
        · split at stepped
          · rw [← (Skip.going.inj (Except.ok.inj stepped)).2.2]
            exact blanks
          · cases stepped

/-! ### The machine -/

/-- Skip what remains of a value within the given lists and objects, the innermost first. -/
def skipFrom (expected : Expected) (around : List Bracket) (text : List Char) :
    Except Fault (List Char) :=
  match _stepped : skipStep expected around text with
  | .error fault => .error fault
  | .ok (.done rest) => .ok rest
  | .ok (.going next inner rest) => skipFrom next inner rest
termination_by text.length
decreasing_by exact length_skipStep_lt _stepped

/-- Skip a value; the text after it is returned. -/
def skipValue (text : List Char) : Except Fault (List Char) :=
  skipFrom .value [] text

end OpGraph.Json
