/-!
# Dotted names

The name of an import is a list of segments joined by points. Text and list of segments determine
each other as long as there is a segment and none holds a point; this module has both directions,
the last segment, which is the name that an import makes visible, and the slashed form that emitted
code uses.
-/

namespace MiniJava.DottedName

/-- Cuts a text at its points. There is always a segment, perhaps an empty one. -/
def segmentsOfChars : List Char → List (List Char)
  | [] => [[]]
  | c :: rest =>
    if c = '.' then [] :: segmentsOfChars rest
    else
      match segmentsOfChars rest with
      | [] => [[c]]
      | segment :: segments => (c :: segment) :: segments

/-- The segments of a dotted name. -/
def segments (name : String) : List String :=
  (segmentsOfChars name.toList).map String.ofList

/-- Segments with a point between neighbours. -/
def joinChars : List (List Char) → List Char
  | [] => []
  | [segment] => segment
  | segment :: next :: rest => segment ++ '.' :: joinChars (next :: rest)

/-- The dotted name of a list of segments; no segments give the empty name. -/
def join (segments : List String) : String :=
  String.ofList (joinChars (segments.map String.toList))

/-- What follows the last point, the whole name if there is none. -/
def lastSegment (name : String) : String :=
  String.ofList ((segmentsOfChars name.toList).getLastD [])

/-- Whether a name is `simple` itself or ends with it after a point. Here `simple` may hold points
of its own. -/
def endsWith (name simple : String) : Bool :=
  name == simple || ('.' :: simple.toList).isSuffixOf name.toList

/-- The name with a slash for every point. -/
def slashed (name : String) : String :=
  String.ofList (name.toList.map fun c => if c = '.' then '/' else c)

end MiniJava.DottedName
