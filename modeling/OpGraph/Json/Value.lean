/-!
# Data in exchange form

Values of the JSON format and their texts.  Numbers are kept as they are written, since only
their digits are of interest here.  The compact text has no blanks; the pretty text has one entry
on a line, indented by two spaces a level.
-/

namespace OpGraph

/-- A value of the JSON format. -/
inductive Json where
  /-- The absent value. -/
  | null
  /-- A truth value. -/
  | bool (value : Bool)
  /-- A number by its digits. -/
  | number (digits : String)
  /-- A text. -/
  | string (value : String)
  /-- A list of values. -/
  | array (items : List Json)
  /-- Values by key, in the order of their text. -/
  | object (entries : List (String × Json))
deriving Repr

namespace Json

/-- The escape of a character inside a text. -/
def escape (character : Char) : List Char :=
  match character with
  | '"' => ['\\', '"']
  | '\\' => ['\\', '\\']
  | '\x08' => ['\\', 'b']
  | '\t' => ['\\', 't']
  | '\n' => ['\\', 'n']
  | '\x0c' => ['\\', 'f']
  | '\r' => ['\\', 'r']
  | other =>
    if other.toNat < 0x20 then
      let digits := Nat.toDigits 16 other.toNat
      ['\\', 'u'] ++ List.replicate (4 - digits.length) '0' ++ digits
    else
      [other]

/-- A text between double quotes. -/
def quote (text : String) : List Char :=
  '"' :: text.toList.flatMap escape ++ ['"']

/-- The text of a value that holds no other values. -/
def scalar : Json → List Char
  | null => "null".toList
  | bool true => "true".toList
  | bool false => "false".toList
  | number digits => digits.toList
  | string value => quote value
  | array _ => []
  | object _ => []

mutual

/-- The text of a value without blanks. -/
def compact : Json → List Char
  | array items => '[' :: compactItems items ++ [']']
  | object entries => '\x7b' :: compactEntries entries ++ ['\x7d']
  | other => other.scalar

/-- The texts of several values with commas between them. -/
def compactItems : List Json → List Char
  | [] => []
  | [item] => item.compact
  | item :: rest => item.compact ++ ',' :: compactItems rest

/-- The texts of several entries with commas between them. -/
def compactEntries : List (String × Json) → List Char
  | [] => []
  | [(key, value)] => quote key ++ ':' :: value.compact
  | (key, value) :: rest => quote key ++ ':' :: value.compact ++ ',' :: compactEntries rest

end

/-- The start of a new line at a level of indentation. -/
def newLine (level : Nat) : List Char :=
  '\n' :: List.replicate (2 * level) ' '

mutual

/-- The text of a value with one entry on a line, inside `level` other values. -/
def pretty (level : Nat) : Json → List Char
  | array [] => ['[', ']']
  | array (item :: rest) =>
    '[' :: prettyItems (level + 1) (item :: rest) ++ newLine level ++ [']']
  | object [] => ['\x7b', '\x7d']
  | object (entry :: rest) =>
    '\x7b' :: prettyEntries (level + 1) (entry :: rest) ++ newLine level ++ ['\x7d']
  | other => other.scalar

/-- The lines of several values. -/
def prettyItems (level : Nat) : List Json → List Char
  | [] => []
  | [item] => newLine level ++ item.pretty level
  | item :: rest => newLine level ++ item.pretty level ++ ',' :: prettyItems level rest

/-- The lines of several entries. -/
def prettyEntries (level : Nat) : List (String × Json) → List Char
  | [] => []
  | [(key, value)] => newLine level ++ quote key ++ ':' :: ' ' :: value.pretty level
  | (key, value) :: rest =>
    newLine level ++ quote key ++ ':' :: ' ' :: value.pretty level ++
      ',' :: prettyEntries level rest

end

/-- The text of a value without blanks. -/
def toCompactText (value : Json) : String :=
  String.ofList value.compact

/-- The text of a value with one entry on a line. -/
def toPrettyText (value : Json) : String :=
  String.ofList (value.pretty 0)

end Json

end OpGraph
