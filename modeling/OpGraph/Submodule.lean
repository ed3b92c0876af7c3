import OpGraph.Graph.Basic

/-!
# Submodules

A submodule is a named computation that graphs can call.  Its body is a graph of its own, whose
attribute paths are relative to the submodule and whose submodule calls name its children; without
a body the submodule can only be called.

Every submodule may have a check of its inputs, which is consulted while the body is traced.  The
check of a single submodule can be overridden, so that it accepts every input, until the override
is released again.  Overrides do not nest.
-/

namespace OpGraph

/-- A named computation with children of its own. -/
structure Submodule where
  /-- The name of the class. -/
  className : String
  /-- The dotted path of the package that defines the class, if it is known. -/
  package : String := ""
  /-- The recorded body; a submodule without one is opaque. -/
  body : Option Graph := none
  /-- The children by name, in ascending order of their names. -/
  children : List (String × Submodule) := []
  /-- The check of the inputs of the body. -/
  check : Option (Node → Bool) := none
  /-- The check is overridden by one that accepts every input. -/
  overridden : Bool := false

/-- Submodules by name, in ascending order of their names. -/
abbrev Forest := List (String × Submodule)

namespace Forest

/-- The submodule at a dotted path, given by its first segment and the later ones. -/
def resolve? (forest : Forest) (first : String) : List String → Option Submodule
  | [] => forest.lookup first
  | second :: later =>
    match forest.lookup first with
    | some submodule => resolve? submodule.children second later
    | none => none

/-- The submodule at a dotted path. -/
def find? (forest : Forest) (path : String) : Option Submodule :=
  forest.resolve? (Dotted.firstSegment path) (Dotted.laterSegments path)

/-- Change the submodule with the given name. -/
def modifyNamed (change : Submodule → Submodule) (forest : Forest) (name : String) : Forest :=
  match forest with
  | [] => []
  | (other, submodule) :: rest =>
    if other = name then (other, change submodule) :: rest
    else (other, submodule) :: modifyNamed change rest name

/-- Change the submodule at a dotted path, given by its first segment and the later ones. -/
def modifyAt (change : Submodule → Submodule) (forest : Forest) (first : String) :
    List String → Forest
  | [] => forest.modifyNamed change first
  | second :: later =>
    let changeBelow (submodule : Submodule) : Submodule :=
      { submodule with children := modifyAt change submodule.children second later }
    forest.modifyNamed changeBelow first

/-- Change the submodule at a dotted path. -/
def modify (forest : Forest) (path : String) (change : Submodule → Submodule) : Forest :=
  modifyAt change forest (Dotted.firstSegment path) (Dotted.laterSegments path)

/-- Add a submodule under a name, in place of the one that had the name before. -/
def insert (forest : Forest) (name : String) (submodule : Submodule) : Forest :=
  match forest with
  | [] => [(name, submodule)]
  | (other, existing) :: rest =>
    if name = other then (name, submodule) :: rest
    else if name < other then (name, submodule) :: (other, existing) :: rest
    else (other, existing) :: insert rest name submodule

/-- The submodule at a dotted path, or the failure that it is unknown. -/
def get (forest : Forest) (path : String) : Except Failure Submodule :=
  match forest.find? path with
  | some submodule => .ok submodule
  | none => .error (.unknownSubmodule path)

end Forest

namespace Submodule

/-- The class name with the package path before it, if the package is known. -/
def qualifiedClass (submodule : Submodule) : String :=
  if submodule.package = "" then submodule.className
  else submodule.package ++ "." ++ submodule.className

/-- The child with the given name. -/
def child? (submodule : Submodule) (name : String) : Option Submodule :=
  submodule.children.lookup name

/-- The descendant at a dotted path of names. -/
def descendant? (submodule : Submodule) (path : String) : Option Submodule :=
  Forest.find? submodule.children path

/-- The input check, or its override, accepts a node. -/
def accepts (submodule : Submodule) (node : Node) : Bool :=
  submodule.overridden ||
    match submodule.check with
    | some check => check node
    | none => true

/-- Override the input check, unless it is overridden already. -/
def holdCheck (submodule : Submodule) : Except Failure Submodule :=
  if submodule.overridden then .error (.checkAlreadyOverridden submodule.className)
  else .ok { submodule with overridden := true }

/-- Put the input check back in force. -/
def releaseCheck (submodule : Submodule) : Submodule :=
  { submodule with overridden := false }

/-- A description of an opaque submodule. -/
def describeOpaque (submodule : Submodule) : String :=
  let names := submodule.children.map fun (name, _) => Text.quoted name
  "Module \x7b class: " ++ Text.quoted submodule.qualifiedClass ++ ", body: Opaque, children: [" ++
    ", ".intercalate names ++ "], input_check: " ++ toString submodule.check.isSome ++
    ", check_override: " ++ toString submodule.overridden ++ " \x7d"

end Submodule

namespace Forest

/-- Override the input check of the submodule at a dotted path. -/
def holdCheck (forest : Forest) (path : String) : Except Failure Forest := do
  let submodule ← forest.get path
  let held ← submodule.holdCheck
  return forest.modify path fun _ => held

/-- Put the input check of the submodule at a dotted path back in force. -/
def releaseCheck (forest : Forest) (path : String) : Forest :=
  forest.modify path Submodule.releaseCheck

end Forest

/-- A graph together with the submodules that it can call. -/
structure Program where
  /-- The graph. -/
  graph : Graph := {}
  /-- The submodules of the graph. -/
  submodules : Forest := []

end OpGraph
