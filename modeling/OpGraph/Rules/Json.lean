import OpGraph.Json.Skip
import OpGraph.Rules.Standard

/-!
# Rules in exchange form

Rules are exchanged as an object with one entry for every table: a table of a map is an object of
texts, and that of a set is a list of texts.  Reading starts from the standard rules.  A table that
is present replaces the standard one as a whole, one that is absent stays as it is, and entries
with other keys are skipped.  Instead of an object there may be a list of tables in their order.
-/

namespace OpGraph.Rules

open Json (Fault Reader)

/-- The entries of a table as texts, in ascending order. -/
inductive Content where
  /-- The entries of a map. -/
  | mapping (entries : List (String × String))
  /-- The members of a set. -/
  | members (items : List String)
deriving DecidableEq, Repr

namespace Content

/-- A table in exchange form. -/
def toJson : Content → Json
  | mapping entries => .object (entries.map fun (key, value) => (key, .string value))
  | members items => .array (items.map .string)

end Content

/-- A table of the rules with its key in exchange form. -/
structure Table where
  /-- The key of the table. -/
  key : String
  /-- The entries of the table. -/
  content : Rules → Content
  /-- Replace the table by the one at the beginning of a text. -/
  replace : Rules → Reader Rules

/-- A map of texts. -/
def readMapping {κ ν : Type} [Ord κ] [Std.TransOrd κ] (key : String → κ) (value : String → ν) :
    Reader (Std.ExtTreeMap κ ν) := fun text =>
  match Json.skipBlanks text with
  | '\x7b' :: rest =>
    Json.entries (fun table text => do
      let (name, text) ← Json.readKey text
      let text ← Json.colon text
      let (entry, text) ← Json.readText text
      return (table.insert (key name) (value entry), text)) ∅ rest
  | other => Json.refuse other

/-- A set of texts. -/
def readMembers {κ : Type} [Ord κ] [Std.TransOrd κ] (key : String → κ) :
    Reader (Std.ExtTreeSet κ) := fun text =>
  match Json.skipBlanks text with
  | '[' :: rest =>
    Json.items (fun table text => do
      let (item, text) ← Json.readText text
      return (table.insert (key item), text)) ∅ rest
  | other => Json.refuse other

namespace Table

/-- A table that is a map. -/
def ofMap {κ ν : Type} [Ord κ] [Std.TransOrd κ] (key : String) (ofName : String → κ)
    (toName : κ → String) (ofValue : String → ν) (toValue : ν → String)
    (get : Rules → Std.ExtTreeMap κ ν) (set : Rules → Std.ExtTreeMap κ ν → Rules) : Table where
  key
  content rules := .mapping ((get rules).toList.map fun (name, value) =>
    (toName name, toValue value))
  replace rules text := do
    let (table, rest) ← readMapping ofName ofValue text
    return (set rules table, rest)

/-- A table that maps functions to functions. -/
def ofFunctionMap (key : String) (get : Rules → FunctionMap FunctionPath)
    (set : Rules → FunctionMap FunctionPath → Rules) : Table :=
  ofMap key .mk FunctionPath.path .mk FunctionPath.path get set

/-- A table that is a set. -/
def ofSet {κ : Type} [Ord κ] [Std.TransOrd κ] (key : String) (ofName : String → κ)
    (toName : κ → String) (get : Rules → Std.ExtTreeSet κ)
    (set : Rules → Std.ExtTreeSet κ → Rules) : Table where
  key
  content rules := .members ((get rules).toList.map toName)
  replace rules text := do
    let (table, rest) ← readMembers ofName text
    return (set rules table, rest)

end Table

/-- The tables in their order. -/
def tables : List Table := [
  .ofMap "normalize_methods" id id .mk FunctionPath.path methodFunctions
    fun rules table => { rules with methodFunctions := table },
  .ofFunctionMap "function_replacements" aliases
    fun rules table => { rules with aliases := table },
  .ofSet "dont_expand_modules" id id opaqueClasses
    fun rules table => { rules with opaqueClasses := table },
  .ofSet "view_ops" id id viewOps
    fun rules table => { rules with viewOps := table },
  .ofSet "maybe_view_ops" id id possibleViewOps
    fun rules table => { rules with possibleViewOps := table },
  .ofSet "never_inplace" .mk FunctionPath.path pureFunctions
    fun rules table => { rules with pureFunctions := table },
  .ofSet "never_inplace_modules" id id purePackages
    fun rules table => { rules with purePackages := table },
  .ofSet "inplace_ops" .mk FunctionPath.path flagFunctions
    fun rules table => { rules with flagFunctions := table },
  .ofFunctionMap "inplace_variants" inplaceVariants
    fun rules table => { rules with inplaceVariants := table },
  .ofFunctionMap "destructive_operators" destructiveOperators
    fun rules table => { rules with destructiveOperators := table },
  .ofFunctionMap "operator_functions" operatorFunctions
    fun rules table => { rules with operatorFunctions := table },
  .ofSet "elementwise_binary_ops" .mk FunctionPath.path elementwiseFunctions
    fun rules table => { rules with elementwiseFunctions := table },
  .ofMap "display_names" .mk FunctionPath.path id id displayNames
    fun rules table => { rules with displayNames := table }]

/-- The rules in exchange form. -/
def toJson (rules : Rules) : Json :=
  .object (tables.map fun table => (table.key, (table.content rules).toJson))

/-- The text of the rules in exchange form. -/
def toText (rules : Rules) : String :=
  rules.toJson.toPrettyText

/-- The rules read so far, with the keys of the tables read so far. -/
structure Draft where
  /-- The rules. -/
  rules : Rules
  /-- The keys of the tables that were present. -/
  present : List String

/-- An entry of the rules from its key on: a table that has not been present, or one to skip. -/
def readEntry (state : Draft) : Reader Draft := fun text => do
  let (key, text) ← Json.readKey text
  match tables.find? fun table => table.key = key with
  | some table =>
    if state.present.contains key then throw .mismatch
    let text ← Json.colon text
    let (rules, text) ← table.replace state.rules text
    return (⟨rules, key :: state.present⟩, text)
  | none =>
    let text ← Json.colon text
    let text ← Json.skipValue text
    return (state, text)

/-- The rules as a list of tables in their order, after its opening bracket; tables missing at the
end stay as they are. -/
def readInOrder (first : Bool) (rules : Rules) : List Table → Reader Rules
  | [], text =>
    match Json.skipBlanks text with
    | [] => .error .truncated
    | ']' :: rest => .ok (rules, rest)
    | _ :: _ => .error .malformed
  | table :: later, text =>
    match Json.skipBlanks text with
    | [] => .error .truncated
    | ']' :: rest => .ok (rules, rest)
    | character :: rest =>
      if first then do
        let (rules, rest) ← table.replace rules (character :: rest)
        readInOrder false rules later rest
      else if character = ',' then
        match Json.skipBlanks rest with
        | [] => .error .truncated
        | ']' :: _ => .error .malformed
        | next => do
          let (rules, rest) ← table.replace rules next
          readInOrder false rules later rest
      else .error .malformed

/-- Rules in exchange form. -/
def read : Reader Rules := fun text =>
  match Json.skipBlanks text with
  | '[' :: rest => readInOrder true standard tables rest
  | '\x7b' :: rest => do
    let (state, rest) ← Json.entries readEntry ⟨standard, []⟩ rest
    return (state.rules, rest)
  | other => Json.refuse other

/-- The rules whose exchange form is the whole text. -/
def ofText (text : String) : Except Fault Rules :=
  Json.readWhole read text

/-- Why a file gives no text. -/
inductive FileFault where
  /-- The file does not exist. -/
  | missing
  /-- The file is not encoded in UTF-8. -/
  | notUnicode
deriving DecidableEq, Repr

/-- The wording of a failure to read a file. -/
def FileFault.message : FileFault → String
  | missing => "failed to read rewrite configuration: No such file or directory (os error 2)"
  | notUnicode => "failed to read rewrite configuration: stream did not contain valid UTF-8"

/-- Why rules could not be loaded. -/
inductive LoadFailure where
  /-- The file gives no text. -/
  | unreadable (fault : FileFault)
  /-- The text is no exchange form of rules. -/
  | invalid (fault : Fault)
deriving DecidableEq, Repr

/-- Where rules come from. -/
inductive Source where
  /-- The standard rules. -/
  | standard
  /-- A text. -/
  | text (content : String)
  /-- A file with the given bytes, or one that does not exist. -/
  | file (content : Option ByteArray)

/-- Load the rules from a source. -/
def load : Source → Except LoadFailure Rules
  | .standard => .ok standard
  | .text content => (ofText content).mapError .invalid
  | .file none => .error (.unreadable .missing)
  | .file (some bytes) =>
    match String.fromUTF8? bytes with
    | some content => (ofText content).mapError .invalid
    | none => .error (.unreadable .notUnicode)

end OpGraph.Rules
