import GrammarLint.Check.All

namespace GrammarLint

open Json (Value)
open Text (Loose)

/-- How a run is set up: the checks that are known to it with their settings, in order, the
patterns of files to leave out and the format of the report. -/
structure Config where
  rules : List (Loose × RuleConfig) := []
  excludePatterns : Value := .arr []
  outputFormat : Value := .str "text"

namespace Config

def rule? (config : Config) (id : Loose) : Option RuleConfig :=
  (config.rules.find? (·.1 == id)).map (·.2)

/-- What is set for whether a check is on; a check that is not there is off. -/
def enabledOf (config : Config) (id : Loose) : Value :=
  match config.rule? id with
  | some rule => rule.enabled
  | none => .bool false

def severityOf (config : Config) (id : Loose) : Severity :=
  match config.rule? id with
  | some rule => rule.severity
  | none => .warning

def adjust (config : Config) (id : Loose) (change : RuleConfig → RuleConfig) : Config :=
  { config with rules := config.rules.map fun entry =>
      if entry.1 == id then (id, change entry.2) else entry }

def standardLimits : Value :=
  .obj [("maxAlternatives", .int 10), ("maxNestingDepth", .int 5), ("maxTokens", .int 50)]

/-- What holds where nothing is configured. -/
def standard : Config where
  rules := [
    ("S001", { severity := .info }), ("S002", { }), ("S003", { severity := .error }),
    ("N001", { severity := .error }), ("N002", { severity := .error }), ("N003", { }),
    ("L001", { }), ("L002", { severity := .info }), ("L003", { }),
    ("C001", { thresholds := standardLimits }), ("C002", { }), ("C003", { severity := .info }),
    ("T001", { }), ("T002", { }), ("T003", { severity := .info }),
    ("E001", { severity := .info }), ("E002", { })]

/-- The standard with all other checks turned on too. -/
def complete : Config :=
  { standard with rules := standard.rules ++
      ((Check.all.filter fun check => (standard.rule? check.id).isNone).map fun check =>
        (.ofString check.id, { })) }

/-- The value under a key of data that should be an object. Arrays and texts are taken as long as
they do not hold the key. -/
def entry? (key : Loose) : Value → Except Fault (Option Value)
  | .obj fields => .ok (Value.lookUp key fields)
  | .arr items =>
    if items.any fun item => match item with
        | .str s => s == key
        | _ => false
    then .error .arrayKey else .ok none
  | .str s => if s.contains key then .error .textKey else .ok none
  | value => .error (.notContainer value.kindName)

end Config

/-- The settings of a check: an object, a truth value that turns it on or off, or a severity.
Anything else says nothing. -/
def RuleConfig.ofValue : Value → Except Fault (Option RuleConfig)
  | .obj fields => do
    let severity ← Severity.ofValue ((Value.lookUp "severity" fields).getD (.str "warning"))
    return some {
      enabled := (Value.lookUp "enabled" fields).getD (.bool true)
      severity := severity
      thresholds := (Value.lookUp "thresholds" fields).getD (.obj []) }
  | .bool enabled => .ok (some { enabled := .bool enabled })
  | .str name => do return some { severity := ← Severity.ofValue (.str name) }
  | _ => .ok none

def RuleConfig.toValue (config : RuleConfig) : Value :=
  let extra : List (Loose × Value) :=
    if config.thresholds.truthy then [("thresholds", config.thresholds)] else []
  .obj (("enabled", config.enabled) :: ("severity", .str config.severity.name) :: extra)

namespace Config

def rulesOfValue : Value → Except Fault (List (Loose × RuleConfig))
  | .obj fields => fields.filterMapM fun (id, value) => do
    return (← RuleConfig.ofValue value).map fun config => (id, config)
  | value => .error (.noAttribute value.kindName "items")

def ofValue (data : Value) : Except Fault Config := do
  let rules ← match ← entry? "rules" data with
    | some rules => rulesOfValue rules
    | none => pure []
  let excludePatterns := (← entry? "excludePatterns" data).getD (.arr [])
  let outputFormat := (← entry? "outputFormat" data).getD (.str "text")
  return { rules, excludePatterns, outputFormat }

def toValue (config : Config) : Value :=
  .obj [
    ("rules", .obj (config.rules.map fun (id, rule) => (id, rule.toValue))),
    ("excludePatterns", config.excludePatterns),
    ("outputFormat", config.outputFormat)]

/-- The items of the exclude patterns; those of a text are its characters, those of an object its
keys. -/
def patterns (config : Config) : Except Fault (List Value) :=
  match config.excludePatterns with
  | .arr items => .ok items
  | .str s => .ok (s.points.map fun point => .str ⟨[point]⟩)
  | .obj fields => .ok (fields.map fun field => .str field.1)
  | value => .error (.notIterable value.kindName)

end Config

end GrammarLint
