import GrammarLint.Check.Basic
import GrammarLint.Check.NameStyle

namespace GrammarLint.Check

def startsWrongForParser (r : Rule) : Bool := r.name.toList.head?.any (!Text.isLower ·)

def lowerFirst : List Char → List Char
  | [] => []
  | c :: rest => Text.toLower [c] ++ rest

def parserRuleName : Check where
  id := "N001"
  title := "Parser Rule Naming"
  description := "Parser rule names must start with a lowercase letter"
  run g config := .ok <| (g.parserRules.filter startsWrongForParser).map fun r =>
    let better := String.ofList (lowerFirst r.name.toList)
    .of "N001" g config r.range s!"Parser rule '{r.name}' should start with lowercase letter"
      s!"Rename to '{better}'" s!"{better}: /* rule content */;"

def lexerRuleName : Check where
  id := "N002"
  title := "Lexer Rule Naming"
  description := "Lexer rule names must start with an uppercase letter"
  run g config := .ok <|
    (g.lexerRules.filter fun r => !r.name.isEmpty && !Text.allUpper r.name.toList).map fun r =>
      let better := String.ofList (Text.toUpper r.name.toList)
      .of "N002" g config r.range s!"Lexer rule '{r.name}' should be all uppercase"
        s!"Rename to '{better}'" s!"{better}: /* rule content */;"

/-- The parser rules with names in camel case and those in snake case. -/
def ruleStyles (rules : List Rule) : List Rule × List Rule :=
  let camel := rules.filter fun r => NameStyle.isRuleCamel r.name.toList
  let others := rules.filter fun r => !NameStyle.isRuleCamel r.name.toList
  (camel, others.filter fun r => NameStyle.isRuleSnake r.name.toList)

def ruleNameStyle : Check where
  id := "N003"
  title := "Inconsistent Naming Convention"
  description := "Rule names should follow a consistent naming convention"
  run g config :=
    let (camel, snake) := ruleStyles (g.parserRules.filter (!·.name.isEmpty))
    if camel.isEmpty || snake.isEmpty then .ok []
    else
      let (style, strays) := if snake.length ≤ camel.length then (NameStyle.camelCase, snake)
        else (NameStyle.snakeCase, camel)
      .ok <| strays.map fun r =>
        .of "N003" g config r.range
          s!"Parser rule '{r.name}' doesn't follow the dominant {style.name} naming convention"
          s!"Rename to follow {style.name} convention"
          s!"Consider renaming to '{style.convert r.name}'"

/-- Lexer rules that stray from the dominant use of underscores, where more than a quarter of the
rules do. -/
def underscoreUse (rules : List Rule) (file : String) (config : RuleConfig) : List Issue :=
  let withUnderscore := rules.filter fun r => r.name.toList.contains '_'
  let without := rules.filter fun r => !r.name.toList.contains '_'
  let minority := min withUnderscore.length without.length
  if withUnderscore.isEmpty || without.isEmpty || 4 * minority ≤ rules.length then []
  else
    let (style, strays) := if withUnderscore.length < without.length
      then ("UPPER_CASE", withUnderscore) else ("UPPER_SNAKE_CASE", without)
    strays.map fun r =>
      let better := String.ofList (r.name.toList.filter (· != '_'))
      { rule := "N003", severity := config.severity,
        message := s!"Lexer rule '{r.name}' doesn't follow the dominant {style} naming convention",
        file := file, range := r.range,
        suggestions := [⟨s!"Rename to follow {style} convention",
          s!"Consider renaming to '{better}'"⟩] }

structure LabelUse where
  label : String
  rule : Rule
  alternative : Alternative

def LabelUse.range (use : LabelUse) : Option Range := use.alternative.range.or use.rule.range

def labelUses (g : Grammar) : List LabelUse :=
  g.parserRules.flatMap fun r => r.alternatives.filterMap fun a =>
    a.label?.map fun label => ⟨label, r, a⟩

def labelStyle? (label : String) : Option NameStyle :=
  let name := label.toList
  if NameStyle.isLabelCamel name then some .camelCase
  else if NameStyle.isLabelSnake name then some .snakeCase
  else if NameStyle.isLabelPascal name then some .pascalCase
  else none

/-- The styles that occur among labels, each with its labels. -/
def labelGroups (labels : List String) : List (NameStyle × List String) :=
  ([.camelCase, .snakeCase, .pascalCase].map fun style =>
    (style, labels.filter fun label => labelStyle? label == some style)).filter
      fun group => !group.2.isEmpty

/-- The first of the largest groups. -/
def dominant : List (NameStyle × List String) → Option NameStyle
  | [] => none
  | group :: rest => some (rest.foldl (fun best next =>
      if best.2.length < next.2.length then next else best) group).1

def labelNameStyle : Check where
  id := "L002"
  title := "Inconsistent Label Naming"
  description := "Labels should follow a consistent naming convention"
  run g config :=
    let uses := labelUses g
    let groups := labelGroups (uses.map (·.label))
    match dominant groups with
    | none => .ok []
    | some style => .ok <| (groups.filter (·.1 != style)).flatMap fun group =>
      group.2.map fun label =>
        let better := style.convert label
        -- A label that occurs several times is shown where it occurs last.
        let range := (uses.reverse.find? (·.label == label)).bind LabelUse.range
        .of "L002" g config range s!"Label '{label}' doesn't follow dominant {style.name} convention"
          s!"Rename to '{better}'" s!"Change #{label} to #{better}"

end GrammarLint.Check
