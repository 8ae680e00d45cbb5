import GrammarLint.Config.Basic
import GrammarLint.Files.Path
import GrammarLint.Grammar.OfTree
import GrammarLint.Text.Utf8
import GrammarLint.Text.Wildcard

namespace GrammarLint

open Json (Value)

structure LintResult where
  file : String
  issues : List Issue

namespace LintResult

def count (severity : Severity) (result : LintResult) : Nat :=
  result.issues.countP (·.severity == severity)

/-- The result with those issues that are at least as severe as asked for, if anything is. -/
def atLeast (least : Option Severity) (result : LintResult) : LintResult :=
  { result with issues := result.issues.filter fun issue => least.all (·.rank ≤ issue.severity.rank) }

end LintResult

namespace Config

/-- The first of the patterns that fits a name decides, and one that is no text before it
fails. -/
def anyFits (name : String) : List Value → Except Fault Bool
  | [] => .ok false
  | .str pattern :: rest => if Text.fits pattern name then .ok true else anyFits name rest
  | value :: _ => .error (.notPath value.kindName)

/-- The file of a path is to be left out, going by its name. -/
def excludes (config : Config) (path : String) : Except Fault Bool := do
  anyFits (Files.fileName path) (← config.patterns)

/-- What a check is set to if it is known and on. -/
def enabled? (config : Config) (id : String) : Option RuleConfig :=
  (config.rule? id).filter (·.enabled.truthy)

end Config

/-- Checks with a configuration for them. A check may be there several times. -/
structure Linter where
  config : Config := .standard
  checks : List Check := Check.all

namespace Linter

def runCheck (config : Config) (g : Grammar) (check : Check) : Except Fault (List Issue) :=
  match config.enabled? check.id with
  | some rule => check.run g rule
  | none => .ok []

def run (linter : Linter) (g : Grammar) : Except Fault (List Issue) := do
  return Issue.settle (← linter.checks.mapM (runCheck linter.config g)).flatten

/-- Why a file has no grammar to check. -/
def failure (path message : String) : Issue where
  rule := "PARSE_ERROR"
  severity := .error
  message := s!"Failed to parse grammar file: {message}"
  file := path
  range := some ⟨1, 1, 1, 1⟩
  suggestions := []

def lintBytes (linter : Linter) (path : String) (bytes : List UInt8) : Except String (List Issue) :=
  match Text.Utf8.decode bytes with
  | .error error => .error error.message
  | .ok text => (linter.run (Grammar.ofText path text)).mapError (·.message.toString)

/-- Checks a file whose bytes were read, or could not be. What goes wrong is itself an issue. -/
def lint (linter : Linter) (path : String) (content : Except String (List UInt8)) :
    Except Fault LintResult := do
  if ← linter.config.excludes path then return ⟨path, []⟩
  match content.bind (linter.lintBytes path) with
  | .ok issues => return ⟨path, issues⟩
  | .error message => return ⟨path, [failure path message]⟩

end Linter

end GrammarLint
