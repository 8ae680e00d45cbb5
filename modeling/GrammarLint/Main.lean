import GrammarLint.Command.Run

namespace GrammarLint.Command

open Files (Store Workspace)

/-- Adds what lies at a place on disk to a store, folders with what is in them up to `depth`
levels. Files that are not asked for by name and hold no grammar are noted without their bytes. -/
def gather : (depth : Nat) → (named : Bool) → List String → Store → IO Store
  | 0, _, _, store => return store
  | depth + 1, named, place, store => do
    let path := (← IO.currentDir) / Files.pathText "/" place
    if ← path.isDir then
      let mut store := store.plant place .folder
      for entry in ← path.readDir do
        store ← gather depth false (place ++ [entry.fileName]) store
      return store
    else if ← path.pathExists then
      let wanted := named || (place.getLast?.map Files.suffix) == some ".g4"
      let bytes ← if wanted then IO.FS.readBinFile path else pure .empty
      return store.plant place (.file bytes.toList)
    else return store

/-- Adds a folder without what is in it, and those above it. -/
def gatherFolders (place : List String) (store : Store) : IO Store := do
  let mut store := store
  for n in List.range (place.length + 1) do
    let folder := place.take n
    if !folder.isEmpty && (store.node? folder).isNone then
      if ← ((← IO.currentDir) / Files.pathText "/" folder).isDir then
        store := store.put folder .folder
  return store

/-- The paths that a word of a command line may name: itself, a value behind an equals sign, or one
behind a short option. -/
def pathsIn (word : String) : List String :=
  let cs := word.toList
  [word, String.ofList ((cs.dropWhile (· != '=')).drop 1), String.ofList (cs.drop 2)].filter
    (!·.isEmpty)

/-- The files that a command line may ask for. -/
def survey (words : List String) : IO Workspace := do
  let here := Files.names (← IO.currentDir).toString
  let mut w : Workspace := ⟨← gatherFolders here ⟨[]⟩, here⟩
  let configs := (Config.searched here).flatMap fun folder =>
    Config.fileNames.map fun name => folder ++ [name]
  for place in configs do
    w := { w with store := ← gather 1 true place w.store }
  for path in ("antlr-lint.json" :: words).flatMap pathsIn do
    let place := w.resolve path
    let store ← gatherFolders place.dropLast w.store
    w := { w with store := ← gather 100 true place store }
  return w

/-- Writes the files of a store that were not so before. -/
def commit (before after : Store) : IO Unit := do
  for (place, node) in after.nodes do
    if before.node? place != some node then
      match node with
      | .file bytes =>
        IO.FS.writeBinFile ((← IO.currentDir) / Files.pathText "/" place) ⟨bytes.toArray⟩
      | .folder => pure ()

/-- The width of a console that is no terminal. -/
def standardWidth : Nat := 80

end GrammarLint.Command

def main (words : List String) : IO UInt32 := do
  let w ← GrammarLint.Command.survey words
  let outcome := GrammarLint.Command.run "antlr-lint" GrammarLint.Command.standardWidth w words
  GrammarLint.Command.commit w.store outcome.workspace.store
  IO.print outcome.output
  return outcome.status.toUInt32
