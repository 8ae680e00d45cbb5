import GrammarLint.Files.Store
import GrammarLint.Text.Search
import GrammarLint.Text.Wildcard

namespace GrammarLint.Files

inductive Part where
  /-- Any number of folders. -/
  | folders
  | named (name : String)
  | fitting (pattern : String)
  | here
deriving DecidableEq, Repr

inductive PatternError where
  | notRelative
  | foldersInName
deriving DecidableEq, Repr

def PatternError.message : PatternError → String
  | .notRelative => "Non-relative patterns are unsupported"
  | .foldersInName => "Invalid pattern: '**' can only be an entire path component"

namespace Part

def ofName (name : String) : Except PatternError Part :=
  if name == "**" then .ok .folders
  else if Text.contains name "**" then .error .foldersInName
  else if ["*", "?", "["].any (Text.contains name) then .ok (.fitting name)
  else .ok (.named name)

/-- The parts of a pattern that is looked for at any depth. -/
def ofPattern (pattern : String) : Except PatternError (List Part) := do
  if !(anchor pattern).isEmpty then .error .notRelative else
  let parts ← (names pattern).mapM ofName
  return .folders :: parts ++ if pattern.endsWith "/" then [.here] else []

end Part

namespace Workspace

/-- The ways on from `path`, given by its names behind `root`, that a pattern allows. -/
def select (w : Workspace) (root : String) : List Part → List String → List (List String)
  | [], path => [path]
  | .here :: _, path => [path]
  | .folders :: rest, path =>
    match w.locate (pathText root path) with
    | .ok (place, .folder) =>
      (path :: (w.store.foldersBelow place).map (path ++ ·)).flatMap (w.select root rest)
    | _ => []
  | .named name :: rest, path =>
    let next := path ++ [name]
    let text := pathText root next
    if if rest.isEmpty then w.present text else w.isFolder text then w.select root rest next
    else []
  | .fitting pattern :: rest, path =>
    match w.locate (pathText root path) with
    | .ok (place, .folder) =>
      let fitting := (w.store.children place).filter (Text.fits pattern)
      let usable := fitting.filter fun name =>
        rest.isEmpty || w.store.node? (place ++ [name]) == some .folder
      usable.flatMap fun name => w.select root rest (path ++ [name])
    | _ => []

/-- The paths at any depth in a folder that a pattern allows, each once. -/
def find (w : Workspace) (folder pattern : String) : Except PatternError (List String) := do
  let root := anchor folder
  return ((w.select root (← Part.ofPattern pattern) (names folder)).eraseDups).map (pathText root)

end Workspace

end GrammarLint.Files
