import GrammarLint.Check.Alternatives
import GrammarLint.Check.Entry
import GrammarLint.Check.Labels
import GrammarLint.Check.Names
import GrammarLint.Check.Patterns
import GrammarLint.Check.Recovery
import GrammarLint.Check.Size

namespace GrammarLint

namespace Check

def all : List Check := [
  endOfFile, catchAll, sharedLiteral,
  parserRuleName, lexerRuleName, ruleNameStyle,
  missingLabels, labelNameStyle, duplicateLabels,
  complexity, deepNesting, longRule,
  overlappingTokens, unreachableToken, unusedToken,
  errorRecovery, ambiguity,
  backtracking, inefficientPattern,
  ruleDocumentation, headerDocumentation]

def find (id : String) (checks : List Check) : Except Fault Check :=
  match checks.find? (·.id == id) with
  | some check => .ok check
  | none => .error (.unknownCheck id)

end Check

namespace Issue

/-- The bounds of the range; none come first. -/
def bounds (issue : Issue) : List Int :=
  match issue.range with
  | some range => [range.startLine, range.startColumn, range.endLine, range.endColumn]
  | none => []

/-- By range, then by message. -/
def before (a b : Issue) : Bool :=
  decide (a.bounds < b.bounds) || a.bounds == b.bounds && decide (a.message ≤ b.message)

/-- Puts each run of issues on missing ends of file in order. -/
def settle (issues : List Issue) : List Issue :=
  (issues.splitBy fun a b => a.rule == Check.endOfFile.id && b.rule == Check.endOfFile.id).flatMap
    (·.mergeSort before)

end Issue

def Check.issues (check : Check) (g : Grammar) (config : RuleConfig) : Except Fault (List Issue) :=
  return Issue.settle (← check.run g config)

end GrammarLint
