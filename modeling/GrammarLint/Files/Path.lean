import GrammarLint.Text.Search

namespace GrammarLint.Files

def pieces (path : String) : List String := (Text.splitAt '/' path.toList).map String.ofList

/-- The names that a path goes through. Empty ones and single points say nothing. -/
def names (path : String) : List String :=
  (pieces path).filter fun name => name != "" && name != "."

def fileName (path : String) : String := (names path).getLast?.getD ""

/-- The slashes at the front that make a path absolute. Two of them are kept apart from one or
more. -/
def anchor (path : String) : String :=
  match path.toList with
  | '/' :: '/' :: '/' :: _ => "/"
  | '/' :: '/' :: _ => "//"
  | '/' :: _ => "/"
  | _ => ""

def pathText (anchor : String) (names : List String) : String :=
  if anchor.isEmpty && names.isEmpty then "." else anchor ++ String.intercalate "/" names

/-- The path without names that say nothing. -/
def normalPath (path : String) : String := pathText (anchor path) (names path)

/-- The part of a name from its last point on, if something stands on both sides of that. -/
def suffix (name : String) : String :=
  let cs := name.toList
  let ending := (cs.reverse.takeWhile (· != '.')).reverse
  if ending.length + 1 < cs.length && !ending.isEmpty then "." ++ String.ofList ending else ""

end GrammarLint.Files
