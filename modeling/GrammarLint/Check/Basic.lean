import GrammarLint.Fault
import GrammarLint.Grammar.Basic
import GrammarLint.Text.Search

namespace GrammarLint

open Json (Value)

inductive Severity where
  | error
  | warning
  | info
deriving DecidableEq, Repr

namespace Severity

def name : Severity → String
  | .error => "error"
  | .warning => "warning"
  | .info => "info"

def all : List Severity := [error, warning, info]

def ofValue (value : Value) : Except Fault Severity :=
  match value with
  | .str name =>
    match all.find? (name == ·.name) with
    | some severity => .ok severity
    | none => .error (.notSeverity value)
  | _ => .error (.notSeverity value)

/-- The higher, the more severe. -/
def rank : Severity → Nat
  | .info => 0
  | .warning => 1
  | .error => 2

end Severity

structure Suggestion where
  description : String
  fix : String
deriving DecidableEq, Repr

structure Issue where
  rule : String
  severity : Severity
  message : String
  file : String
  range : Option Range
  suggestions : List Suggestion
deriving DecidableEq, Repr

/-- How one check is set up. What stands under `enabled` and `thresholds` is taken from the
configuration as it is. -/
structure RuleConfig where
  enabled : Value := .bool true
  severity : Severity := .warning
  thresholds : Value := .obj []

namespace RuleConfig

def threshold (config : RuleConfig) (name : String) (standard : Value) : Except Fault Value :=
  match config.thresholds with
  | .obj fields => .ok ((Value.lookUp name fields).getD standard)
  | value => .error (.noAttribute value.kindName "get")

end RuleConfig

def exceeds (count : Int) (limit : Value) : Except Fault Bool :=
  match limit with
  | .int n => .ok (decide (n < count))
  | .bool b => .ok (decide ((if b then 1 else 0) < count))
  | .float x => .ok (Json.floatBelow x count)
  | value => .error (.notOrdered "int" value.kindName)

structure Check where
  id : String
  title : String
  description : String
  run : Grammar → RuleConfig → Except Fault (List Issue)

/-- An issue with one suggestion. -/
def Issue.of (id : String) (g : Grammar) (config : RuleConfig) (range : Option Range)
    (message description fix : String) : Issue :=
  { rule := id, severity := config.severity, message := message, file := g.file, range := range,
    suggestions := [⟨description, fix⟩] }

end GrammarLint
