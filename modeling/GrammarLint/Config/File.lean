import GrammarLint.Config.Basic
import GrammarLint.Files.Store
import GrammarLint.Json.Reader
import GrammarLint.Json.Writer
import GrammarLint.Text.Utf8

namespace GrammarLint

open Files (Workspace)
open Text (Loose)

namespace Text

/-- Makes each end of line a line feed. -/
def unifyLines : List Char → List Char
  | [] => []
  | '\r' :: '\n' :: rest => '\n' :: unifyLines rest
  | '\r' :: rest => '\n' :: unifyLines rest
  | c :: rest => c :: unifyLines rest

end Text

inductive LoadError where
  | missing (path : String)
  | notJson (mistake : Json.Mistake) (text : List Char)
  | unusable (reason : Loose)

def LoadError.message : LoadError → Loose
  | .missing path => s!"Configuration file not found: {path}"
  | .notJson mistake text => s!"Invalid JSON in configuration file: {mistake.message text}"
  | .unusable reason => "Error loading configuration: " ++ reason

namespace Config

/-- How deep the parts of a configuration file may lie in each other, and how long its whole
numbers may be. -/
def limits : Json.Limits := ⟨989, Json.mostDigits⟩

def ofTextWithin (limits : Json.Limits) (text : List Char) : Except LoadError Config :=
  match Json.read limits text with
  | .error (.mistake mistake) => .error (.notJson mistake text)
  | .error error => .error (.unusable (error.message text))
  | .ok data => (ofValue data).mapError fun fault => .unusable fault.message

def ofBytesWithin (limits : Json.Limits) (bytes : List UInt8) : Except LoadError Config :=
  match Text.Utf8.decode bytes with
  | .error error => .error (.unusable error.message)
  | .ok text => ofTextWithin limits (Text.unifyLines text)

def ofBytes : List UInt8 → Except LoadError Config := ofBytesWithin limits

def render (config : Config) : String := config.toValue.render

def loadWithin (limits : Json.Limits) (w : Workspace) (path : String) : Except LoadError Config :=
  let normal := Files.normalPath path
  if !w.present normal then .error (.missing path)
  else
    match w.read normal with
    | .error error => .error (.unusable error.message)
    | .ok bytes => ofBytesWithin limits bytes

def load : Workspace → String → Except LoadError Config := loadWithin limits

def save (config : Config) (w : Workspace) (path : String) : Except Files.Error Workspace :=
  w.write path (Text.Utf8.encode config.render.toList)

def fileNames : List String :=
  ["antlr-lint.json", ".antlr-lint.json", "antlr-linter.json", ".antlr-linter.json"]

/-- A folder and those above it, but not the root. -/
def searched (folder : List String) : List (List String) :=
  (List.range folder.length).map fun n => folder.take (folder.length - n)

def discover (there : List String → Bool) (folder : List String) : Option (List String) :=
  (searched folder).findSome? fun folder => (fileNames.map fun name => folder ++ [name]).find? there

/-- The nearest configuration file, seen from the folder of a path. -/
def find (w : Workspace) (path : String) : Option (List String) :=
  discover (fun place => (w.store.node? place).isSome) (w.resolve path)

/-- Shows a place by its way from a folder above it. -/
def relativeTo (folder place : List String) : String :=
  if folder.isPrefixOf place then Files.pathText "" (place.drop folder.length)
  else Files.pathText "/" place

/-- The configuration of a path, or the nearest one, or the standard. Errors name files by their
way from `base`. -/
def loadOrFind (w : Workspace) (base : List String) (path : Option String) :
    Except LoadError Config :=
  match path.filter (!·.isEmpty) with
  | some path => load w path
  | none =>
    match find w "." with
    | some place => load { w with here := base } (relativeTo base place)
    | none => .ok .standard

end Config

end GrammarLint
