import GrammarLint.Check.Tokens

namespace GrammarLint.Check

def hintsAtRecovery (r : Rule) : Bool :=
  r.elements.any fun e => containsAny e.text ["catch", "finally", "recover", "error"]

/-- A rule whose name suggests that errors should be recovered from in it. -/
def isImportant (r : Rule) : Bool :=
  containsAny (String.ofList (Text.toLower r.name.toList)) ["statement", "expression",
    "declaration", "block", "program", "compilation", "file", "root", "main"]

def errorRecovery : Check where
  id := "E001"
  title := "Missing Error Recovery"
  description := "Grammar should include error recovery strategies"
  run g config :=
    if g.kind == .lexer then .ok []
    else .ok <|
      ((g.parserRules.filter fun r => !hintsAtRecovery r && isImportant r).map fun r =>
        .of "E001" g config r.range
          s!"Rule '{r.name}' should include error recovery for robustness" "Add error recovery"
          "Consider adding catch blocks or error alternatives") ++
      if g.parserRules.isEmpty || g.parserRules.any hintsAtRecovery then []
      else [.of "E001" g config g.range "Grammar lacks error recovery strategies"
        "Add error recovery to key rules" "Add catch blocks to handle parsing errors gracefully"]

end GrammarLint.Check
