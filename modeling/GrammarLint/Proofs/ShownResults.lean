import GrammarLint.Proofs.Independence
import GrammarLint.Proofs.PrintedReport
import GrammarLint.Proofs.RuleParts
import GrammarLint.Proofs.WholeTexts
import GrammarLint.Proofs.XmlReport

open List

namespace GrammarLint

open Files (Workspace)
open Json (Value)
open Text (CodePoint Loose Whole)

section Places

open Phrase (Tree Category)

variable {tree : Tree}

variable {spec : Tree}

end Places

namespace Linter

variable {config : Config}

end Linter

namespace Xml

/-- All texts of an element are whole. -/
inductive Whole : Xml → Prop
  | element {tag : String} {attributes : List (String × Loose)} {text : Loose} {children : List Xml} :
      (∀ field ∈ attributes, Text.Whole field.2.points) → Text.Whole text.points →
      (∀ child ∈ children, Whole child) → Whole (.element tag attributes text children)

theorem escaped_whole {points : List CodePoint} (whole : Text.Whole points) (escape : Char → List Char) :
    Text.Whole (points.flatMap (escapePoint escape)) := by
  refine .flatMap fun p mem => ?_
  have isChar := whole p mem
  cases p with
  | char c => exact .chars _
  | half place => cases isChar

theorem renderAll_eq_flatMap (children : List Xml) : renderAll children = children.flatMap render := by
  induction children with
  | nil => rfl
  | cons child children ih => rw [renderAll, ih, flatMap_cons]

theorem Whole.render {x : Xml} (whole : x.Whole) : Text.Whole x.render := by
  induction whole with
  | @element tag attributes text children inAttributes inText _ ih =>
    have opening : Text.Whole (verbatim s!"<{tag}" ++
        attributes.flatMap fun field => renderAttribute field.1 field.2) :=
      (Text.Whole.chars _).append (.flatMap fun field mem =>
        ((Text.Whole.chars _).append (escaped_whole (inAttributes field mem) _)).append (.chars _))
    rw [Xml.render]
    split
    · exact opening.append (.chars _)
    · rw [renderAll_eq_flatMap]
      exact (((opening.append (.chars _)).append (escaped_whole inText _)).append (.flatMap ih)).append
        (.chars _)

end Xml

namespace Report

def Page.Whole (page : Page) : Prop := ∀ text ∈ page.texts, Text.Whole text.points

section Whole

variable {page : Page} {pages : List Page}

theorem Page.Whole.remark (whole : page.Whole) {remark : Remark} (mem : remark ∈ page.remarks) :
    Text.Whole remark.rule.points ∧ Text.Whole remark.message.points ∧
      ∀ s ∈ remark.suggestions, Text.Whole s.1.points ∧ Text.Whole s.2.points := by
  have texts : ∀ text ∈ remark.texts, Text.Whole text.points := fun text inside =>
    whole text (mem_cons_of_mem _ (mem_flatMap.mpr ⟨remark, mem, inside⟩))
  simp only [Remark.texts, forall_mem_cons, forall_mem_flatMap] at texts
  exact ⟨texts.1, texts.2.1, fun s among => ⟨(texts.2.2 s among).1, (texts.2.2 s among).2.1⟩⟩

variable {s : Loose × Loose} {tag : String}

theorem entryLines_whole (whole : page.Whole) {remark : Remark} (mem : remark ∈ page.remarks) :
    ∀ line ∈ entryLines remark.entry, Text.Whole line.points := by
  obtain ⟨rule, message, suggestions⟩ := whole.remark mem
  refine forall_mem_cons.mpr ⟨Loose.whole_append (Loose.whole_append (Loose.whole_between _ _ message)
    rule) (Loose.whole_ofString _), fun line inside => ?_⟩
  simp only [Remark.entry, mem_flatMap, mem_map] at inside
  obtain ⟨-, ⟨s, among, rfl⟩, inside⟩ := inside
  obtain ⟨description, fix⟩ := suggestions s among
  rcases mem_cons.mp inside with rfl | inFix
  · exact Loose.whole_append (Loose.whole_ofString _) description
  · split at inFix
    · rw [mem_singleton.mp inFix]
      exact Loose.whole_append (Loose.whole_ofString _) fix
    · cases inFix

theorem sheetLines_whole (whole : page.Whole) : ∀ line ∈ sheetLines page.sheet, Text.Whole line.points := by
  intro line mem
  unfold sheetLines at mem
  split at mem
  · cases mem
  · rcases mem_cons.mp mem with rfl | inEntries
    · exact Loose.whole_between _ _ (whole _ mem_cons_self)
    · simp only [Page.sheet, mem_flatMap, mem_map] at inEntries
      obtain ⟨-, ⟨remark, own, rfl⟩, inside⟩ := inEntries
      exact entryLines_whole whole own line inside

theorem plain_whole (whole : ∀ page ∈ pages, page.Whole) :
    Text.Whole (plain (pages.map Page.sheet)).points := by
  unfold plain
  split
  · exact Loose.whole_ofString _
  · refine Text.Whole.intersperse (.chars ['\n']) (forall_mem_map.mpr fun line mem => ?_)
    rcases mem_append.mp mem with inSheets | inSummary
    · simp only [mem_flatMap, mem_map] at inSheets
      obtain ⟨-, ⟨page, inPages, rfl⟩, inside⟩ := inSheets
      exact sheetLines_whole (whole page inPages) line inside
    · split at inSummary
      · rw [mem_singleton.mp inSummary]
        exact Loose.whole_ofString _
      · rcases mem_cons.mp inSummary with rfl | inLines
        · exact Loose.whole_ofString _
        · obtain ⟨entry, -, rfl⟩ := mem_map.mp inLines
          exact Loose.whole_ofString _

end Whole

end Report

namespace Command

variable {config : Config}

end Command

end GrammarLint
