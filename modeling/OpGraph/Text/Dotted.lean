/-!
# Dotted names

Function paths, attribute paths and submodule paths are segments joined by dots.  A name always
has a first segment, which may be empty: the empty name has one empty segment, and a dot at
either end contributes an empty segment there.
-/

namespace OpGraph.Dotted

/-- Cut a name at every dot into its first segment and the later ones. -/
def split : List Char → List Char × List (List Char)
  | [] => ([], [])
  | character :: rest =>
    let (first, later) := split rest
    if character = '.' then ([], first :: later) else (character :: first, later)

/-- The first segment of a name. -/
def firstSegment (name : String) : String :=
  String.ofList (split name.toList).1

/-- The segments after the first one. -/
def laterSegments (name : String) : List String :=
  (split name.toList).2.map String.ofList

/-- The part of a name after its last dot, or the whole of a name without dots. -/
def lastSegment (name : String) : String :=
  String.ofList (name.toList.reverse.takeWhile (· ≠ '.')).reverse

/-- The part of a name before its last dot, or the empty text for a name without dots. -/
def qualifier (name : String) : String :=
  String.ofList ((name.toList.reverse.dropWhile (· ≠ '.')).drop 1).reverse

/-- The name with an underscore in place of every dot. -/
def flatten (name : String) : String :=
  name.map fun character => if character = '.' then '_' else character

end OpGraph.Dotted
