import GrammarLint.Report.Basic

namespace GrammarLint

open Text (CodePoint Loose)

/-- An element with attributes, a text and further elements behind it. -/
inductive Xml where
  | element (tag : String) (attributes : List (String × Loose)) (text : Loose)
      (children : List Xml)

namespace Xml

def escapeTextChar (c : Char) : List Char :=
  if c == '&' then "&amp;".toList
  else if c == '<' then "&lt;".toList
  else if c == '>' then "&gt;".toList
  else [c]

def escapeAttributeChar (c : Char) : List Char :=
  if c == '"' then "&quot;".toList
  else if c == '\r' then "&#13;".toList
  else if c == '\n' then "&#10;".toList
  else if c == '\t' then "&#09;".toList
  else escapeTextChar c

/-- Only characters are escaped. -/
def escapePoint (escape : Char → List Char) : CodePoint → List CodePoint
  | .char c => (escape c).map .char
  | .half place => [.half place]

def escapeText (s : Loose) : List CodePoint := s.points.flatMap (escapePoint escapeTextChar)

def escapeAttribute (s : Loose) : List CodePoint := s.points.flatMap (escapePoint escapeAttributeChar)

def verbatim (s : String) : List CodePoint := s.toList.map .char

def renderAttribute (name : String) (value : Loose) : List CodePoint :=
  verbatim s!" {name}=\"" ++ escapeAttribute value ++ verbatim "\""

mutual
/-- An element without text and children is written as one tag. -/
def render : Xml → List CodePoint
  | element tag attributes text children =>
    let opening := verbatim s!"<{tag}" ++ attributes.flatMap fun (name, value) =>
      renderAttribute name value
    if text.isEmpty && children.isEmpty then opening ++ verbatim " />"
    else opening ++ verbatim ">" ++ escapeText text ++ renderAll children ++ verbatim s!"</{tag}>"

def renderAll : List Xml → List CodePoint
  | [] => []
  | child :: children => child.render ++ renderAll children
end

end Xml

namespace Report

open Json (Value)

/-- The characters that a text cannot hold as they are. -/
def textMarks : List Loose := ["&", "<", ">"]

def attributeMarks : List Loose := ["&", "<", ">", "\"", "\r", "\n", "\t"]

/-- Members of an array, keys of an object. -/
def members : Value → Option (List Loose)
  | .arr items => some (items.filterMap fun item =>
      match item with
      | .str s => some s
      | _ => none)
  | .obj fields => some (fields.map (·.1))
  | _ => none

/-- A value as the text of an element. Nothing and what counts as nothing give no text. -/
def xmlText (value : Value) : Except Fault Loose :=
  if !value.truthy then .ok ""
  else
    match value, members value with
    | .str s, _ => .ok s
    | _, some names =>
      if names.any textMarks.contains then .error (.notWritable value)
      else .error (.notText value.kindName)
    | _, none => .error (.notWritable value)

/-- A value as an attribute: a text, or an array or object as it is shown. -/
def xmlAttribute (value : Value) : Except Fault Loose :=
  match value, members value with
  | .str s, _ => .ok s
  | _, some names =>
    if names.any attributeMarks.contains then .error (.notWritable value) else .ok value.shown
  | _, none => .error (.notWritable value)

def leaf (tag : String) (text : Loose) : Xml := .element tag [] text []

def group (tag : String) (children : List Xml) : Xml := .element tag [] "" children

def suggestionXml (suggestion : Value × Value) : Except Fault Xml := do
  let description ← xmlText suggestion.1
  let fix ← xmlText suggestion.2
  return group "suggestion" (leaf "description" description ::
    if suggestion.2.truthy then [leaf "fix" fix] else [])

def entryXml (entry : Entry) : Except Fault Xml := do
  let rule ← xmlAttribute entry.rule
  let message ← xmlText entry.message
  let suggestions ← entry.suggestions.mapM suggestionXml
  return .element "issue" [
      ("ruleId", rule),
      ("severity", entry.severity.name),
      ("line", toString entry.range.startLine),
      ("column", toString entry.range.startColumn)] ""
    (leaf "message" message ::
      if suggestions.isEmpty then [] else [group "suggestions" suggestions])

def sheetXml (sheet : Sheet) : Except Fault Xml := do
  let path ← xmlAttribute sheet.file
  return .element "file" [("path", path)] "" (← sheet.entries.mapM entryXml)

def summaryXml (sheets : List Sheet) : Xml :=
  let total := tally (allEntries sheets)
  group "summary" [
    leaf "totalFiles" (toString sheets.length),
    leaf "totalIssues" (toString total.issues),
    leaf "errorCount" (toString total.errors),
    leaf "warningCount" (toString total.warnings),
    leaf "infoCount" (toString total.infos)]

def toXml (sheets : List Sheet) : Except Fault Xml := do
  return group "lintResults" [summaryXml sheets, group "results" (← sheets.mapM sheetXml)]

def xml (sheets : List Sheet) : Except Fault Loose := do
  return ⟨(← toXml sheets).render⟩

end Report

end GrammarLint
