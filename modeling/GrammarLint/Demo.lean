import GrammarLint.Session

namespace GrammarLint.Demo

open Files (Workspace)

def upperName (severity : Severity) : String :=
  String.ofList (severity.name.toList.map Char.toUpper)

def goodLines (result : LintResult) : List String :=
  s!"   Issues found: {result.issues.length}" :: result.issues.map fun issue =>
    s!"   • {upperName issue.severity}: {issue.message} ({issue.rule})"

def issueLines (issue : Issue) : List String :=
  let line := (issue.range.map (·.startLine)).getD 0
  s!"   • Line {line}: {upperName issue.severity} - {issue.message} ({issue.rule})" ::
    issue.suggestions.map fun suggestion => s!"     💡 {suggestion.description}"

def badLines (result : LintResult) : List String :=
  let errors := result.count .error
  let warnings := result.count .warning
  let infos := result.count .info
  [s!"   Issues found: {result.issues.length}",
    s!"   Errors: {errors}, Warnings: {warnings}, Info: {infos}"] ++
  if result.issues.isEmpty then []
  else "\n   Issues:" :: result.issues.flatMap issueLines

def checkLines : List String :=
  s!"\n📋 Available rules: {Check.all.length}" ::
    Check.all.map fun check => s!"   • {check.id}: {check.title}"

def title : List String := ["🔍 ANTLR v4 Linter Demo", String.ofList (List.replicate 50 '=')]

/-- Checks two example files and lists all checks. -/
def run (w : Workspace) : Except Fault String := do
  let good ← Linter.lintFile { } w "examples/good_grammar.g4"
  let bad ← Linter.lintFile { } w "examples/bad_grammar.g4"
  return String.join <| (title ++
    "\n📄 Testing good_grammar.g4:" :: goodLines good ++
    "\n📄 Testing bad_grammar.g4:" :: badLines bad ++
    checkLines ++ ["\n✅ Demo completed!"]).map (· ++ "\n")

end GrammarLint.Demo
