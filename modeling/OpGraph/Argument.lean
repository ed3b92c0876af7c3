import OpGraph.Literal
import Std.Data.ExtTreeMap

/-!
# Arguments

An argument of a call is a reference to the value of another node, a literal, or a tuple of
arguments.  The type of references is a parameter: a graph refers to nodes by identity, and the
comparison of graphs refers to them by position.

References are the variables of an argument.  `Argument.bind` substitutes arguments for them,
`Argument.traverse` does so with a substitution that may fail, and `Argument.refs` lists them from
left to right.  The failure of a traversal is that of the leftmost reference without an image.
-/

namespace OpGraph

/-- An argument of a call, with references of type `ρ`. -/
inductive Argument (ρ : Type) where
  /-- The value of another node. -/
  | ref (target : ρ)
  /-- A constant. -/
  | literal (value : Literal)
  /-- A tuple of arguments. -/
  | tuple (items : List (Argument ρ))
deriving Repr

namespace Argument

variable {ρ σ ε : Type}

mutual

/-- Structural equality of two arguments is decidable. -/
def decEq [DecidableEq ρ] : (left right : Argument ρ) → Decidable (left = right)
  | ref left, ref right => decidable_of_iff (left = right) (by simp)
  | literal left, literal right => decidable_of_iff (left = right) (by simp)
  | tuple left, tuple right =>
    match decEqAll left right with
    | isTrue equal => isTrue (by rw [equal])
    | isFalse different => isFalse (by simpa using different)
  | ref _, literal _ => isFalse (by simp)
  | ref _, tuple _ => isFalse (by simp)
  | literal _, ref _ => isFalse (by simp)
  | literal _, tuple _ => isFalse (by simp)
  | tuple _, ref _ => isFalse (by simp)
  | tuple _, literal _ => isFalse (by simp)

/-- Structural equality of two lists of arguments is decidable. -/
def decEqAll [DecidableEq ρ] : (left right : List (Argument ρ)) → Decidable (left = right)
  | [], [] => isTrue rfl
  | [], _ :: _ => isFalse (by simp)
  | _ :: _, [] => isFalse (by simp)
  | left :: lefts, right :: rights =>
    match decEq left right, decEqAll lefts rights with
    | isTrue equal, isTrue equals => isTrue (by rw [equal, equals])
    | isFalse different, _ => isFalse (by simp [different])
    | _, isFalse different => isFalse (by simp [different])

end

instance [DecidableEq ρ] : DecidableEq (Argument ρ) := decEq

/-- The node referred to, if the argument is a bare reference. -/
def asRef? : Argument ρ → Option ρ
  | ref target => some target
  | literal _ => none
  | tuple _ => none

/-- The text, if the argument is a text literal. -/
def asText? : Argument ρ → Option String
  | literal (.text value) => some value
  | _ => none

/-- The argument as a condition; references and tuples are none. -/
def truth? : Argument ρ → Option Bool
  | literal value => value.truth?
  | _ => none

mutual

/-- The references of an argument from left to right, one entry for every occurrence. -/
def refs : Argument ρ → List ρ
  | ref target => [target]
  | literal _ => []
  | tuple items => refsAll items

/-- The references of several arguments from left to right. -/
def refsAll : List (Argument ρ) → List ρ
  | [] => []
  | item :: rest => item.refs ++ refsAll rest

end

mutual

/-- Substitute an argument for every reference. -/
def bind (image : ρ → Argument σ) : Argument ρ → Argument σ
  | ref target => image target
  | literal value => literal value
  | tuple items => tuple (bindAll image items)

/-- Substitute an argument for every reference of several arguments. -/
def bindAll (image : ρ → Argument σ) : List (Argument ρ) → List (Argument σ)
  | [] => []
  | item :: rest => item.bind image :: bindAll image rest

end

mutual

/-- Substitute an argument for every reference, failing at the first one without an image. -/
def traverse (image : ρ → Except ε (Argument σ)) : Argument ρ → Except ε (Argument σ)
  | ref target => image target
  | literal value => .ok (literal value)
  | tuple items => tuple <$> traverseAll image items

/-- Substitute an argument for every reference of several arguments, from left to right. -/
def traverseAll (image : ρ → Except ε (Argument σ)) :
    List (Argument ρ) → Except ε (List (Argument σ))
  | [] => .ok []
  | item :: rest => do
    let first ← item.traverse image
    let others ← traverseAll image rest
    return first :: others

end

mutual

/-- The comparison of arguments, with doubles compared as numbers. -/
def agrees [DecidableEq ρ] : Argument ρ → Argument ρ → Bool
  | ref left, ref right => left == right
  | literal left, literal right => left.agrees right
  | tuple left, tuple right => agreeAll left right
  | _, _ => false

/-- Two lists of arguments agree position by position. -/
def agreeAll [DecidableEq ρ] : List (Argument ρ) → List (Argument ρ) → Bool
  | [], [] => true
  | left :: lefts, right :: rights => left.agrees right && agreeAll lefts rights
  | _, _ => false

end

/-- The argument refers to the given target. -/
def mentions [DecidableEq ρ] (target : ρ) (argument : Argument ρ) : Bool :=
  argument.refs.contains target

/-- The substitution of one argument for one reference. -/
def single [DecidableEq ρ] (old : ρ) (new : Argument ρ) (target : ρ) : Argument ρ :=
  if target = old then new else ref target

theorem refsAll_eq_flatMap (items : List (Argument ρ)) : refsAll items = items.flatMap refs := by
  induction items with
  | nil => rfl
  | cons item rest ih => simp [refsAll, ih]

theorem bindAll_eq_map (image : ρ → Argument σ) (items : List (Argument ρ)) :
    bindAll image items = items.map (bind image) := by
  induction items with
  | nil => rfl
  | cons item rest ih => simp [bindAll, ih]

end Argument

/-- Keyword arguments, ordered by name. -/
abbrev Kwargs (ρ : Type) := Std.ExtTreeMap String (Argument ρ)

instance {ρ : Type} [DecidableEq ρ] : DecidableEq (Kwargs ρ) := inferInstance

namespace Kwargs

variable {ρ σ ε : Type}

/-- The references of keyword arguments in the order of their names. -/
def refs (kwargs : Kwargs ρ) : List ρ :=
  kwargs.toList.flatMap fun (_, argument) => argument.refs

/-- Substitute an argument for every reference of keyword arguments. -/
def bind (image : ρ → Argument σ) (kwargs : Kwargs ρ) : Kwargs σ :=
  kwargs.map fun _ argument => argument.bind image

/-- Substitute an argument for every reference, in the order of the names, failing at the first
reference without an image. -/
def traverse (image : ρ → Except ε (Argument σ)) (kwargs : Kwargs ρ) : Except ε (Kwargs σ) := do
  let entries ← kwargs.toList.mapM fun (name, argument) => do
    return (name, ← argument.traverse image)
  return Std.ExtTreeMap.ofList entries

/-- Two collections of keyword arguments have the same names and agree at each of them. -/
def agrees [DecidableEq ρ] (left right : Kwargs ρ) : Bool :=
  left.keys == right.keys && Argument.agreeAll left.values right.values

end Kwargs

end OpGraph
