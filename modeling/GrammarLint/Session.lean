import GrammarLint.Config.File
import GrammarLint.Config.Problem
import GrammarLint.Files.Find
import GrammarLint.Linter
import GrammarLint.Report.Format

namespace GrammarLint

open Files (Workspace)
open Json (Value)
open Text (Loose)

namespace Linter

def readGrammar (w : Workspace) (path : String) : Except String (List UInt8) :=
  if w.present (Files.normalPath path) then (w.read path).mapError Files.Error.message
  else .error s!"Grammar file not found: {path}"

def lintFile (linter : Linter) (w : Workspace) (path : String) : Except Fault LintResult :=
  linter.lint path (readGrammar w path)

def lintFiles (linter : Linter) (w : Workspace) (paths : List String) :
    Except Fault (List LintResult) :=
  paths.mapM (linter.lintFile w)

end Linter

/-- The grammar files that some paths stand for: files of the right kind themselves, folders for
what lies below them. -/
def grammarFiles (w : Workspace) (paths : List String) : List String :=
  Text.sorted <| paths.flatMap fun path =>
    let normal := Files.normalPath path
    if w.isFile normal then
      if Files.suffix (Files.fileName path) == ".g4" then [normal] else []
    else if w.isFolder normal then ((w.find path "*.g4").toOption).getD []
    else []

inductive SessionError where
  | fault (cause : Fault)
  | load (error : LoadError)
  | file (error : Files.Error)
  | pattern (error : Files.PatternError)
  | noFolder (path : String)
  | noRule (id : String)

def SessionError.message : SessionError → Loose
  | .fault cause => cause.message
  | .load error => error.message
  | .file error => error.message
  | .pattern error => error.message
  | .noFolder path => s!"Directory not found: {path}"
  | .noRule id => Text.quoted id

/-- A linter at work on files, with its last results. -/
structure Session where
  workspace : Workspace
  linter : Linter := { }
  results : List LintResult := []

namespace Session

def lintFiles (s : Session) (paths : List String) : Except SessionError Session := do
  let results ← (s.linter.lintFiles s.workspace paths).mapError .fault
  return { s with results }

/-- Checks the files in a folder, at any depth, whose paths a pattern allows. -/
def lintFolder (s : Session) (folder pattern : String) : Except SessionError Session := do
  if !s.workspace.isFolder (Files.normalPath folder) then .error (.noFolder folder) else
  let paths ← (s.workspace.find folder pattern).mapError .pattern
  s.lintFiles (Text.sorted (paths.filter s.workspace.isFile))

def findings (s : Session) : List FileFindings := s.results.map FileFindings.ofResult

/-- Reports the last results, in the configured format if none is given. -/
def report (s : Session) (format : Value) : Except SessionError Loose :=
  (Report.render (if format.truthy then format else s.linter.config.outputFormat)
    s.findings).mapError .fault

def print (s : Session) (width : Nat) (colors : Bool) : Except SessionError Loose :=
  (Report.print width colors s.findings).mapError .fault

def setConfig (s : Session) (config : Config) : Session :=
  { s with linter := { s.linter with config } }

/-- Changes the settings of a check: first whether it is on, then the severity, which may fail,
then the thresholds. -/
def setRule (s : Session) (id : String) (enabled severity thresholds : Option Value) :
    Session × Except SessionError RuleConfig :=
  match s.linter.config.rule? id with
  | none => (s, .error (.noRule id))
  | some rule =>
    let put (rule : RuleConfig) : Session := s.setConfig (s.linter.config.adjust id fun _ => rule)
    let rule := { rule with enabled := enabled.getD rule.enabled }
    match (severity.map Severity.ofValue).getD (.ok rule.severity) with
    | .error fault => (put rule, .error (.fault fault))
    | .ok severity =>
      let rule := { rule with severity, thresholds := thresholds.getD rule.thresholds }
      (put rule, .ok rule)

/-- Adds a check once more. -/
def register (s : Session) (id : String) : Except SessionError Session := do
  let check ← (Check.find id s.linter.checks).mapError .fault
  return { s with linter := { s.linter with checks := s.linter.checks ++ [check] } }

def save (s : Session) (config : Config) (path : String) : Except SessionError Session := do
  let workspace ← (config.save s.workspace path).mapError .file
  return { s with workspace }

/-- Takes the configuration of a path, or the nearest one seen from a folder. -/
def load (s : Session) (folder : String) (path : Option String) : Except SessionError Session := do
  match s.workspace.locate folder with
  | .error cause => .error (.file ⟨cause, folder⟩)
  | .ok (_, .file _) => .error (.file ⟨.notFolder, folder⟩)
  | .ok (place, .folder) =>
    let config ← (Config.loadOrFind { s.workspace with here := place } s.workspace.here
      path).mapError .load
    return s.setConfig config

end Session

end GrammarLint
