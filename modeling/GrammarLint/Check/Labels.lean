import GrammarLint.Check.Basic

namespace GrammarLint.Check

/-- How many alternatives have no label. -/
def unlabeled (r : Rule) : Nat := r.alternatives.countP (·.label?.isNone)

def missingLabels : Check where
  id := "L001"
  title := "Missing Alternative Labels"
  description := "Parser rules with multiple alternatives should have labels for clarity"
  run g config := .ok <|
    (g.parserRules.filter fun r =>
      decide (1 < r.alternatives.length) && decide (0 < unlabeled r)).map fun r =>
        .of "L001" g config r.range
          s!"Rule '{r.name}' has {unlabeled r} unlabeled alternative(s) out of {r.alternatives.length}"
          "Add labels to alternatives" s!"Add #label syntax to each alternative in '{r.name}'"

def labelsOf (r : Rule) : List String := (r.alternatives.filterMap (·.label?)).eraseDups

/-- The alternatives with the label, and their numbers. -/
def labeledWith (label : String) (r : Rule) : List (Alternative × Nat) :=
  r.alternatives.zipIdx.filter fun (a, _) => a.label? == some label

def duplicateLabels : Check where
  id := "L003"
  title := "Duplicate Labels"
  description := "Labels within the same rule must be unique"
  run g config := .ok <| g.parserRules.flatMap fun r => (labelsOf r).flatMap fun label =>
    let uses := labeledWith label r
    if uses.length ≤ 1 then []
    else uses.map fun (a, i) =>
      .of "L003" g config (a.range.or r.range)
        s!"Duplicate label '{label}' in rule '{r.name}' (alternative {i + 1})"
        "Use unique label" s!"Change to #{label}_{i + 1} or another unique name"

end GrammarLint.Check
