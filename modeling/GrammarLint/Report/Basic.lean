import GrammarLint.Linter

namespace GrammarLint

open Json (Value)

/-- Something to be reported. Texts are taken as values, so that a report says what it was
given. -/
structure Finding where
  rule : Value
  severity : Severity
  message : Value
  range : Option Range
  suggestions : List (Value × Value)

structure FileFindings where
  file : Value
  findings : List Finding

def Finding.ofIssue (issue : Issue) : Finding where
  rule := .str issue.rule
  severity := issue.severity
  message := .str issue.message
  range := issue.range
  suggestions := issue.suggestions.map fun s => (.str s.description, .str s.fix)

def FileFindings.ofResult (result : LintResult) : FileFindings where
  file := .str result.file
  findings := result.issues.map Finding.ofIssue

namespace Report

/-- A finding with its place. -/
structure Entry where
  rule : Value
  severity : Severity
  message : Value
  range : Range
  suggestions : List (Value × Value)

structure Sheet where
  file : Value
  entries : List Entry

def Entry.ofFinding (finding : Finding) : Except Fault Entry :=
  match finding.range with
  | some range =>
    .ok ⟨finding.rule, finding.severity, finding.message, range, finding.suggestions⟩
  | none => .error (.noAttribute Value.null.kindName "start")

/-- All findings need a place. -/
def ofFindings (files : List FileFindings) : Except Fault (List Sheet) :=
  files.mapM fun file => do
    return ⟨file.file, ← file.findings.mapM Entry.ofFinding⟩

def Entry.location (entry : Entry) : String :=
  s!"{entry.range.startLine}:{entry.range.startColumn}"

structure Tally where
  issues : Nat
  errors : Nat
  warnings : Nat
  infos : Nat
deriving DecidableEq, Repr

def tally (entries : List Entry) : Tally where
  issues := entries.length
  errors := entries.countP (·.severity == .error)
  warnings := entries.countP (·.severity == .warning)
  infos := entries.countP (·.severity == .info)

def allEntries (sheets : List Sheet) : List Entry := sheets.flatMap (·.entries)

/-- The lines of a summary. Severities that do not occur are left out. -/
def summaryLines (total : Tally) : List (String × Nat) :=
  ("Total issues", total.issues) ::
    [("Errors", total.errors), ("Warnings", total.warnings), ("Info", total.infos)].filter
      (0 < ·.2)

end Report

end GrammarLint
