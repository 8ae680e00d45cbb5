import GrammarLint.Check.Basic
import GrammarLint.Text.CaseMap

namespace GrammarLint.Check

open Json (Value)

/-- A name is among the values under `mainRules`. -/
def isNamedBy (name : String) : Value → Except Fault Bool
  | .str s => .ok (s.contains name)
  | .arr items => .ok (items.any fun item =>
      match item with
      | .str s => s == name
      | _ => false)
  | .obj fields => .ok (fields.any (·.1 == name))
  | value => .error (.notContainer value.kindName)

/-- The text of an element counts as a reference to a rule. -/
def refersToRule (e : Element) : Bool :=
  e.type == .ruleRef ||
    !([.suffix, .terminal, .charSet, .tokenRef].contains e.type) &&
      (e.text.toList.head?.any Text.isLower && Text.allLettersOrNumbers e.text.toList)

def referencedNames (rules : List Rule) : List String :=
  ((rules.flatMap Rule.elements).filter refersToRule).map (·.text)

def commonEntryNames : List String :=
  ["program", "compilationunit", "start", "main", "root", "file", "document", "script", "module",
    "parse"]

/-- Names of main rules even if some rule refers to them. -/
def certainEntryNames : List String := ["program", "compilationunit", "start"]

def lowerName (r : Rule) : String := String.ofList (Text.toLower r.name.toList)

/-- A main rule by its look: nobody refers to it and it comes first or has a common name; or it
has a certain name and is among the first three. -/
def looksLikeEntry (rules : List Rule) (r : Rule) : Bool :=
  if (referencedNames rules).contains r.name then
    certainEntryNames.contains (lowerName r) && decide (rules.findIdx (·.same r) < 3)
  else rules.head?.any (r.same ·) || commonEntryNames.contains (lowerName r)

/-- The main rules: those the configuration names, or else those that look like it. -/
def entryRules (rules : List Rule) (mainRules : Value) : Except Fault (List Rule) :=
  if mainRules.truthy then rules.filterM fun r => isNamedBy r.name mainRules
  else .ok (Rule.distinct (rules.filter (looksLikeEntry rules)))

def endsInEndOfFile (r : Rule) : Bool :=
  r.alternatives.any fun a =>
    a.elements.getLast?.any fun e => Text.toUpper e.text.toList == "EOF".toList

def endOfFile : Check where
  id := "S001"
  title := "Missing EOF Token"
  description := "Main parser rule should end with EOF token to ensure complete input parsing"
  run g config := do
    if !config.enabled.truthy || g.kind == .lexer || g.parserRules.isEmpty then return []
    let entries ← entryRules g.parserRules (← config.threshold "mainRules" (.arr []))
    return (entries.filter (!endsInEndOfFile ·)).map fun r =>
      let content := if r.alternatives.isEmpty then "/* rule content */ EOF"
        else "/* existing content */ EOF"
      .of "S001" g config r.range
        s!"Potential main parser rule '{r.name}' should end with EOF token"
        "Add EOF token to rule if this is a main entry point" s!"{r.name}: {content};"

end GrammarLint.Check
