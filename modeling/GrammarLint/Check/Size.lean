import GrammarLint.Check.Basic

namespace GrammarLint.Check

structure Brackets where
  opening : List Char
  closing : List Char

def parentheses : Brackets := ⟨['('], [')']⟩

def allBrackets : Brackets := ⟨['(', '[', '{'], [')', ']', '}']⟩

/-- The greatest depth in a text that starts at depth `current`, and at least `deepest`. A closing
bracket without an opening one changes nothing. -/
def depthFrom (brackets : Brackets) (current deepest : Nat) : List Char → Nat
  | [] => deepest
  | c :: rest =>
    if brackets.opening.contains c then
      depthFrom brackets (current + 1) (max deepest (current + 1)) rest
    else if brackets.closing.contains c then depthFrom brackets (current - 1) deepest rest
    else depthFrom brackets current deepest rest

def wholeText (a : Alternative) : List Char := a.elements.flatMap (·.text.toList)

def alternativeDepth (brackets : Brackets) (a : Alternative) : Nat :=
  depthFrom brackets 0 0 (wholeText a)

/-- How deep brackets lie in each other in the alternatives of a rule. -/
def nestingDepth (brackets : Brackets) (r : Rule) : Nat :=
  (r.alternatives.map (alternativeDepth brackets)).foldl max 0

def elementCount (r : Rule) : Nat := r.elements.length

/-- The number has no more digits than can be written. -/
def isWritable (n : Int) : Bool := decide (n.natAbs < Nat.pow 10 Json.mostDigits)

def numberText (n : Int) : Except Fault String :=
  if isWritable n then .ok (toString n) else .error (.tooLong Json.mostDigits)

/-- A limit in words. -/
def limitText : Json.Value → Except Fault String
  | .int n => numberText n
  | limit => .ok limit.shown

/-- What is counted and its limit, in words, if there is more of it than the limit. -/
def overrun (what : String) (count : Nat) (limit : Json.Value) : Except Fault (Option String) := do
  if ← exceeds count limit then return s!"{what} ({count} > {← limitText limit})" else return none

/-- What makes a rule too complex, in words. -/
def excesses (limits : List (String × Nat × Json.Value)) : Except Fault (List String) :=
  limits.filterMapM fun (what, count, limit) => overrun what count limit

def complexity : Check where
  id := "C001"
  title := "Excessive Rule Complexity"
  description := "Rules should not exceed complexity thresholds for maintainability"
  run g config := do
    let maxAlternatives ← config.threshold "maxAlternatives" (.int 10)
    let maxDepth ← config.threshold "maxNestingDepth" (.int 5)
    let maxTokens ← config.threshold "maxTokens" (.int 50)
    g.rules.filterMapM fun r => do
      let found ← excesses [
        ("too many alternatives", r.alternatives.length, maxAlternatives),
        ("excessive nesting depth", nestingDepth parentheses r, maxDepth),
        ("too many tokens", elementCount r, maxTokens)]
      return if found.isEmpty then none
        else some (.of "C001" g config r.range
          s!"Rule '{r.name}' is too complex: {Text.commaList found}"
          "Break down into smaller rules"
          "Consider extracting alternatives or sub-expressions into separate rules")

def deepNesting : Check where
  id := "C002"
  title := "Deeply Nested Rule"
  description := "Rules should avoid deep nesting for readability"
  run g config := do
    let maxDepth ← config.threshold "maxNestingDepth" (.int 4)
    g.rules.filterMapM fun r => do
      let depth := nestingDepth allBrackets r
      return if ← exceeds depth maxDepth then
          some (.of "C002" g config r.range s!"Rule '{r.name}' has deep nesting (depth: {depth})"
            "Flatten nested structures" "Extract nested expressions into separate rules")
        else none

def longRule : Check where
  id := "C003"
  title := "Very Long Rule"
  description := "Rules should be kept concise for maintainability"
  run g config := do
    let maxLines ← config.threshold "maxLines" (.int 30)
    g.rules.filterMapM fun r => do
      match r.range with
      | none => return none
      | some range =>
        let lines := range.endLine - range.startLine + 1
        if ← exceeds lines maxLines then
          let count ← numberText lines
          return some (.of "C003" g config r.range s!"Rule '{r.name}' is very long ({count} lines)"
            "Break into smaller rules"
            "Consider splitting this rule into multiple smaller rules")
        else return none

/-- A rule that should be explained: three alternatives, or more than ten elements, or an action
or a question mark. -/
def isComplex (r : Rule) : Bool :=
  decide (3 ≤ r.alternatives.length) || decide (10 < elementCount r) ||
    r.elements.any fun e => e.text.toList.contains '{' || e.text.toList.contains '?'

def ruleDocumentation : Check where
  id := "D001"
  title := "Missing Rule Documentation"
  description := "Complex rules should have documentation comments"
  run g config := .ok <| (g.rules.filter isComplex).map fun r =>
    .of "D001" g config r.range s!"Complex rule '{r.name}' lacks documentation"
      "Add documentation comment" s!"Add /* Description of {r.name} */ before the rule"

def headerDocumentation : Check where
  id := "D002"
  title := "Missing Grammar Header"
  description := "Grammar file should have a header comment with description"
  run g config := .ok [.of "D002" g config g.range "Grammar file lacks header documentation"
    "Add header comment"
    s!"Add at the beginning of file:\n/*\n * Grammar: {g.name}\n * Description: [Brief description]\n * Author: [Your name]\n * Date: [Date]\n */"]

end GrammarLint.Check
