import Mathlib
import GrammarLint.Report.Json
import GrammarLint.Report.Xml
import GrammarLint.Proofs.Outcomes

open List

namespace GrammarLint.Report

open Json (Value)
open Text (Loose)

/-- A finding that has a place and texts in all its other fields. -/
structure Remark where
  rule : Loose
  severity : Severity
  message : Loose
  range : Range
  suggestions : List (Loose × Loose)
deriving DecidableEq

/-- The remarks on a file. -/
structure Page where
  file : Loose
  remarks : List Remark
deriving DecidableEq

namespace Remark

def finding (remark : Remark) : Finding where
  rule := .str remark.rule
  severity := remark.severity
  message := .str remark.message
  range := some remark.range
  suggestions := remark.suggestions.map fun s => (.str s.1, .str s.2)

def entry (remark : Remark) : Entry where
  rule := .str remark.rule
  severity := remark.severity
  message := .str remark.message
  range := remark.range
  suggestions := remark.suggestions.map fun s => (.str s.1, .str s.2)

end Remark

namespace Page

def findings (page : Page) : FileFindings := ⟨.str page.file, page.remarks.map Remark.finding⟩

def sheet (page : Page) : Sheet := ⟨.str page.file, page.remarks.map Remark.entry⟩

/-- How many remarks there are on the file, in all and of each severity. -/
def tally (page : Page) : Tally where
  issues := page.remarks.length
  errors := page.remarks.countP (·.severity == .error)
  warnings := page.remarks.countP (·.severity == .warning)
  infos := page.remarks.countP (·.severity == .info)

variable (page : Page)

theorem tally_sheet : Report.tally page.sheet.entries = page.tally := by
  simp [Report.tally, tally, sheet, Function.comp_def, Remark.entry]

/-- Each remark has one of the three severities. -/
theorem tally_balanced :
    page.tally.issues = page.tally.errors + page.tally.warnings + page.tally.infos := by
  rw [tally]
  induction page.remarks with
  | nil => rfl
  | cons remark remarks ih =>
    simp only [length_cons, countP_cons] at ih ⊢
    cases remark.severity <;> simp <;> omega

end Page

/-- The counts of several files together. -/
def totals (tallies : List Tally) : Tally where
  issues := (tallies.map (·.issues)).sum
  errors := (tallies.map (·.errors)).sum
  warnings := (tallies.map (·.warnings)).sum
  infos := (tallies.map (·.infos)).sum

variable (pages : List Page)

theorem tally_allEntries :
    tally (allEntries (pages.map Page.sheet)) = totals (pages.map Page.tally) := by
  simp [tally, totals, allEntries, Page.tally, countP_flatMap,
    Function.comp_def, Page.sheet, Remark.entry]

theorem ofFindings_pages :
    ofFindings (pages.map Page.findings) = .ok (pages.map Page.sheet) := by
  have entries (page : Page) : page.findings.findings.mapM Entry.ofFinding = .ok page.sheet.entries := by
    simp only [Page.findings, Page.sheet, mapM_map]
    exact mapM_eq_ok fun _ _ => rfl
  rw [ofFindings, mapM_map]
  refine mapM_eq_ok fun page _ => ?_
  simp only [Function.comp_apply, entries, ok_bind]
  rfl

theorem mapM_map_eq_some {α β γ : Type} {f : β → Option γ} {g : α → β} {h : α → γ} (items : List α)
    (each : ∀ a, f (g a) = some (h a)) : (items.map g).mapM f = some (items.map h) := by
  induction items with
  | nil => rfl
  | cons a items ih => simp [each, ih]

end GrammarLint.Report
