import GrammarLint.Files.Path
import GrammarLint.Text.Quoted

namespace GrammarLint.Files

inductive Node where
  | file (bytes : List UInt8)
  | folder
deriving DecidableEq, Repr

/-- Files and folders, each under the names that lead to it from the root. The root itself is a
folder and is not listed. -/
structure Store where
  nodes : List (List String × Node)

inductive Cause where
  | missing
  | notFolder
  | isFolder
deriving DecidableEq, Repr

def Cause.text : Cause → String
  | .missing => "[Errno 2] No such file or directory"
  | .notFolder => "[Errno 20] Not a directory"
  | .isFolder => "[Errno 21] Is a directory"

structure Error where
  cause : Cause
  path : String
deriving DecidableEq, Repr

def Error.message (error : Error) : String := s!"{error.cause.text}: {Text.quoted error.path}"

namespace Store

def node? (store : Store) (place : List String) : Option Node :=
  if place.isEmpty then some .folder
  else (store.nodes.find? (·.1 == place)).map (·.2)

def put (store : Store) (place : List String) (node : Node) : Store :=
  if (store.node? place).isSome then
    ⟨store.nodes.map fun entry => if entry.1 == place then (place, node) else entry⟩
  else ⟨store.nodes ++ [(place, node)]⟩

def plant (store : Store) (place : List String) (node : Node) : Store :=
  let parents := (List.range place.length).map place.take
  let store := parents.foldl (fun store parent =>
    if (store.node? parent).isSome then store else store.put parent .folder) store
  store.put place node

def children (store : Store) (place : List String) : List String :=
  store.nodes.filterMap fun (names, _) =>
    if names.length == place.length + 1 && place.isPrefixOf names then names.getLast? else none

/-- The ways from a folder to the folders below it. -/
def foldersBelow (store : Store) (place : List String) : List (List String) :=
  store.nodes.filterMap fun (names, node) =>
    if node == .folder && place.length < names.length && place.isPrefixOf names then
      some (names.drop place.length)
    else none

/-- Goes from a place through some names. Two points lead back; a single point or nothing stays,
but only in a folder. -/
def walk (store : Store) (place : List String) : List String → Except Cause (List String)
  | [] => .ok place
  | name :: rest =>
    match store.node? place with
    | none => .error .missing
    | some (.file _) => .error .notFolder
    | some .folder =>
      if name == "" || name == "." then store.walk place rest
      else if name == ".." then store.walk place.dropLast rest
      else store.walk (place ++ [name]) rest

end Store

/-- Files, and the folder from which relative paths go. -/
structure Workspace where
  store : Store
  here : List String

namespace Workspace

def origin (w : Workspace) (path : String) : List String :=
  if path.toList.head? == some '/' then [] else w.here

/-- The place of a path as it stands. -/
def place (w : Workspace) (path : String) : Except Cause (List String) :=
  if path.isEmpty then .error .missing else w.store.walk (w.origin path) (pieces path)

def locate (w : Workspace) (path : String) : Except Cause (List String × Node) := do
  let place ← w.place path
  match w.store.node? place with
  | some node => return (place, node)
  | none => .error .missing

def present (w : Workspace) (path : String) : Bool := (w.locate path).isOk

def isFile (w : Workspace) (path : String) : Bool :=
  match w.locate path with
  | .ok (_, .file _) => true
  | _ => false

def isFolder (w : Workspace) (path : String) : Bool :=
  match w.locate path with
  | .ok (_, .folder) => true
  | _ => false

def read (w : Workspace) (path : String) : Except Error (List UInt8) :=
  match w.locate path with
  | .ok (_, .file bytes) => .ok bytes
  | .ok (_, .folder) => .error ⟨.isFolder, path⟩
  | .error cause => .error ⟨cause, path⟩

/-- Where a file of a path may be written: in a folder, and not in place of one. A path that ends in
a slash names a folder, whatever lies there. -/
def target (w : Workspace) (path : String) : Except Cause (List String) := do
  if path.isEmpty then .error .missing else
  let names := ((pieces path).reverse.dropWhile String.isEmpty).reverse
  let parent ← w.store.walk (w.origin path) names.dropLast
  match w.store.node? parent with
  | none => .error .missing
  | some (.file _) => .error .notFolder
  | some .folder =>
    let name := names.getLast?.getD ""
    let place := parent ++ [name]
    if path.toList.getLast? == some '/' || ["", ".", ".."].contains name ||
        w.store.node? place == some .folder then
      .error .isFolder
    else return place

def write (w : Workspace) (path : String) (bytes : List UInt8) : Except Error Workspace :=
  match w.target path with
  | .ok place => .ok { w with store := w.store.put place (.file bytes) }
  | .error cause => .error ⟨cause, path⟩

/-- The place of a path going by its names alone. -/
def resolve (w : Workspace) (path : String) : List String :=
  (names path).foldl (fun place name => if name == ".." then place.dropLast else place ++ [name])
    (w.origin path)

end Workspace

end GrammarLint.Files
