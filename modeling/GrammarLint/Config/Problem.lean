import GrammarLint.Config.Basic

namespace GrammarLint

open Json (Value)
open Text (Loose)

inductive ConfigProblem where
  | format (value : Value)
  | unknownRule (id : Loose)
  | pattern (kind : String)
  | threshold (name id : Loose)

def ConfigProblem.message : ConfigProblem → Loose
  | .format value =>
    "Invalid output format '" ++ value.display ++ "'. Valid options: json, text, xml"
  | .unknownRule id => "Unknown rule ID '" ++ id ++ "'"
  | .pattern kind => s!"Exclude pattern must be a string, got <class '{kind}'>"
  | .threshold name id =>
    "Threshold '" ++ name ++ "' for rule " ++ id ++ " must be a positive integer"

def formatNames : List String := ["text", "json", "xml"]

namespace Config

/-- The format is none that there is. Arrays and objects cannot be looked up. -/
def formatProblems : Value → Except Fault (List ConfigProblem)
  | .str name => .ok (if formatNames.any (name == ·) then [] else [.format (.str name)])
  | .arr items => .error (.unhashable (Value.arr items).kindName)
  | .obj fields => .error (.unhashable (Value.obj fields).kindName)
  | value => .ok [.format value]

def problems (config : Config) : Except Fault (List ConfigProblem) := do
  let format ← formatProblems config.outputFormat
  let known := Check.all.map fun check => Loose.ofString check.id
  let unknown := ((config.rules.map (·.1)).filter (!known.contains ·)).map ConfigProblem.unknownRule
  let odd := (← config.patterns).filter (!·.isStr)
  return format ++ unknown ++ odd.map fun value => .pattern value.kindName

end Config

def isPositive : Value → Bool
  | .int n => decide (0 < n)
  | .bool b => b
  | _ => false

/-- The limits of the complexity check have to be positive. Those of other checks are not looked
at. -/
def RuleConfig.thresholdProblems (id : Loose) (config : RuleConfig) :
    Except Fault (List ConfigProblem) :=
  if id == Check.complexity.id then
    match config.thresholds with
    | .obj fields => .ok <| (fields.filter fun (name, value) =>
        ["maxAlternatives", "maxNestingDepth", "maxTokens"].any (name == ·) && !isPositive value).map
          fun (name, _) => .threshold name id
    | value => .error (.noAttribute value.kindName "items")
  else .ok []

end GrammarLint
