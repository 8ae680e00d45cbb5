import GrammarLint.Report.Basic

namespace GrammarLint.Report

open Text (Loose)

def symbol : Severity → String
  | .error => "❌"
  | .warning => "\u26a0\ufe0f"
  | .info => "\u2139\ufe0f"

def suggestionLines (suggestion : Json.Value × Json.Value) : List Loose :=
  ("    💡 " ++ suggestion.1.display) ::
    if suggestion.2.truthy then ["       Fix: " ++ suggestion.2.display] else []

def entryLines (entry : Entry) : List Loose :=
  (s!"  {entry.location} {symbol entry.severity} " ++ entry.message.display ++ " (" ++
    entry.rule.display ++ ")") ::
    entry.suggestions.flatMap suggestionLines

/-- A file without issues is not named. -/
def sheetLines (sheet : Sheet) : List Loose :=
  if sheet.entries.isEmpty then []
  else ("\n" ++ sheet.file.display ++ ":") :: sheet.entries.flatMap entryLines

def separator : String := String.ofList ('\n' :: List.replicate 50 '=')

def plain (sheets : List Sheet) : Loose :=
  if sheets.isEmpty then "No files processed."
  else
    let total := tally (allEntries sheets)
    let summary : List Loose :=
      if total.issues == 0 then ["✅ No issues found!"]
      else .ofString separator :: (summaryLines total).map fun (name, count) => s!"{name}: {count}"
    .joinLines (sheets.flatMap sheetLines ++ summary)

end GrammarLint.Report
