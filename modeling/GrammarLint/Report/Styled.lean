import GrammarLint.Console.Print
import GrammarLint.Report.Plain

namespace GrammarLint.Report

open Json (Value)
open Text (CodePoint Loose)
open Console (Item Table)

/-- A value in a cell of a table: a text with tags, or nothing. -/
def cell : Value → Except Fault (List CodePoint)
  | .str s => .ok (Console.plain s.points)
  | .null => .ok []
  | value => .error (.notShowable value.kindName)

def severityCell (severity : Severity) : Loose :=
  String.ofList (severity.name.toList.map Char.toUpper)

def entryRow (entry : Entry) : Except Fault (List (List CodePoint)) := do
  return [(Loose.ofString entry.location).points, (severityCell entry.severity).points,
    ← cell entry.rule, ← cell entry.message]

def entryTable (entries : List Entry) : Except Fault Table := do
  return {
    columns := [("Location", false), ("Severity", true), ("Rule", false), ("Message", false)].map
      fun (title, centered) => ⟨(Loose.ofString title).points, centered⟩
    rows := ← entries.mapM entryRow }

def suggestionItems (suggestion : Value × Value) : List Item :=
  .text ("    💡 [green]" ++ suggestion.1.display ++ "[/green]") ::
    if suggestion.2.truthy then
      [.text ("       [dim]Fix: " ++ suggestion.2.display ++ "[/dim]")]
    else []

def sheetItems (sheet : Sheet) : Except Fault (List Item) := do
  if sheet.entries.isEmpty then return []
  let table ← entryTable sheet.entries
  return [.text ("\n[bold]" ++ sheet.file.display ++ "[/bold]:"), .table table] ++
    (sheet.entries.flatMap (·.suggestions)).flatMap suggestionItems

def styled (sheets : List Sheet) : Except Fault (List Item) := do
  if sheets.isEmpty then return [.text "No files processed."]
  let total := tally (allEntries sheets)
  let summary :=
    if total.issues == 0 then [Item.text "✅ No issues found!"]
    else .text separator :: (summaryLines total).map fun (name, count) => .text s!"{name}: {count}"
  return (← sheets.mapM sheetItems).flatten ++ summary

end GrammarLint.Report
