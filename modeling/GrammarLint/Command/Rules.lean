import GrammarLint.Check.All

namespace GrammarLint.Command

/-- The kinds of checks, by the first letters of their ids. -/
def categories : List (Char × String) := [
  ('S', "Syntax and Structure"),
  ('N', "Naming and Convention"),
  ('L', "Labeling and Organization"),
  ('C', "Complexity and Maintainability"),
  ('T', "Token and Lexer"),
  ('E', "Error Handling"),
  ('P', "Performance"),
  ('D', "Documentation")]

def checksOf (letter : Char) : List Check :=
  (Check.all.filter (·.id.toList.head? == some letter)).mergeSort fun a b => decide (a.id ≤ b.id)

def checkLines (check : Check) : List String :=
  [s!"  [blue]{check.id}[/blue]: {check.title}", s!"    {check.description}"]

def categoryLines (category : Char × String) : List String :=
  let checks := checksOf category.1
  if checks.isEmpty then []
  else s!"[bold cyan]{category.2}:[/bold cyan]" :: checks.flatMap checkLines ++ [""]

def ruleLines : List String :=
  "[bold]Available Linting Rules:[/bold]\n" :: categories.flatMap categoryLines

end GrammarLint.Command
