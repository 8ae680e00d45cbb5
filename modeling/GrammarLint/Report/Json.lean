import GrammarLint.Json.Writer
import GrammarLint.Report.Basic

namespace GrammarLint.Report

open GrammarLint.Json (Value)
open Text (Loose)

def tallyFields (tally : Tally) : List (Loose × Value) := [
  ("totalIssues", .int tally.issues),
  ("errorCount", .int tally.errors),
  ("warningCount", .int tally.warnings),
  ("infoCount", .int tally.infos)]

def suggestionValue (suggestion : Value × Value) : Value :=
  .obj [("description", suggestion.1), ("fix", suggestion.2)]

def entryValue (entry : Entry) : Value := .obj [
  ("ruleId", entry.rule),
  ("severity", .str entry.severity.name),
  ("message", entry.message),
  ("line", .int entry.range.startLine),
  ("column", .int entry.range.startColumn),
  ("endLine", .int entry.range.endLine),
  ("endColumn", .int entry.range.endColumn),
  ("suggestions", .arr (entry.suggestions.map suggestionValue))]

def sheetValue (sheet : Sheet) : Value := .obj [
  ("file", sheet.file),
  ("issues", .arr (sheet.entries.map entryValue)),
  ("summary", .obj (tallyFields (tally sheet.entries)))]

/-- What was found in each file, and the totals. -/
def toValue (sheets : List Sheet) : Value := .obj [
  ("results", .arr (sheets.map sheetValue)),
  ("summary", .obj (("totalFiles", .int sheets.length) :: tallyFields (tally (allEntries sheets))))]

def json (sheets : List Sheet) : String := (toValue sheets).render

end GrammarLint.Report
