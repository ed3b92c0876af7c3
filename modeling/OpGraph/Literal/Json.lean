import OpGraph.Json.Reader
import OpGraph.Literal

/-!
# Literals in exchange form

A literal is exchanged as an object with one entry, whose key is the kind of the literal; the
absent value is exchanged as the name of its kind.
-/

namespace OpGraph.Literal

/-- The literal in exchange form. -/
def toJson : Literal → Json
  | null => .string "None"
  | bool value => .object [("Bool", .bool value)]
  | int value => .object [("Int", .number (toString value))]
  | float value => .object [("Float", .number (NumberStyle.exchanged.write value))]
  | text value => .object [("Str", .string value)]

/-- A kind of literal. -/
inductive Kind where
  /-- The absent value. -/
  | null
  /-- Truth values. -/
  | bool
  /-- Integers. -/
  | int
  /-- Doubles. -/
  | float
  /-- Texts. -/
  | text

namespace Kind

/-- The kind of a given name; there are no others. -/
def ofName (name : String) : Except Json.Fault Kind :=
  if name = "None" then .ok null
  else if name = "Bool" then .ok bool
  else if name = "Int" then .ok int
  else if name = "Float" then .ok float
  else if name = "Str" then .ok text
  else .error .mismatch

end Kind

/-- An integer literal, if the number is an integer of 64 bits with sign. -/
def ofInteger : Json.Number → Except Json.Fault Literal
  | .integer value =>
    if -(Int.pow 2 63) ≤ value ∧ value < Int.pow 2 63 then .ok (int value) else .error .mismatch
  | .double _ => .error .mismatch

/-- A double literal; an integer becomes the nearest double. -/
def ofNumber : Json.Number → Literal
  | .integer value =>
    let magnitude := value.natAbs.toUInt64.toFloat
    float ⟨(if value < 0 then -magnitude else magnitude).toBits⟩
  | .double value => float ⟨value.toBits⟩

/-- The value of a literal of a known kind. -/
def readValue : Kind → Json.Reader Literal
  | .null => fun content => do
    let (_, rest) ← Json.readNull content
    return (null, rest)
  | .bool => fun content => do
    let (value, rest) ← Json.readBool content
    return (bool value, rest)
  | .int => fun content => do
    let (number, rest) ← Json.readNumber content
    return (← ofInteger number, rest)
  | .float => fun content => do
    let (number, rest) ← Json.readNumber content
    return (ofNumber number, rest)
  | .text => fun content => do
    let (value, rest) ← Json.readText content
    return (text value, rest)

/-- A literal that is given by the name of its kind alone. -/
def ofKind : Kind → Except Json.Fault Literal
  | .null => .ok null
  | _ => .error .mismatch

/-- A literal in exchange form. -/
def read : Json.Reader Literal := fun content =>
  match Json.skipBlanks content with
  | [] => .error .truncated
  | '"' :: name => do
    let (name, rest) ← Json.readKey name
    return (← ofKind (← Kind.ofName name), rest)
  | '\x7b' :: entry => do
    let (name, rest) ← Json.readQuotedKey entry
    let kind ← Kind.ofName name
    let rest ← Json.colon rest
    let (value, rest) ← readValue kind rest
    match Json.skipBlanks rest with
    | [] => .error .truncated
    | '\x7d' :: rest => return (value, rest)
    | _ :: _ => .error .malformed
  | _ :: _ => .error .malformed

/-- The literal whose exchange form is the whole text. -/
def ofText (content : String) : Except Json.Fault Literal :=
  Json.readWhole read content

end OpGraph.Literal
