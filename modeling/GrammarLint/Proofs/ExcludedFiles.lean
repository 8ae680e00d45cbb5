import GrammarLint.Proofs.WrittenFiles
import GrammarLint.Linter

open List

namespace GrammarLint

open Files (fileName)
open Json (Value)
open Text (CodePoint Loose)

/-- A character that a pattern names has to be there. -/
theorem Text.Wildcard.mem_of_matchesAll {ws : List Wildcard} {cs : List CodePoint} {c : CodePoint}
    (matched : matchesAll ws cs = true) (named : char c ∈ ws) : c ∈ cs := by
  fun_induction matchesAll ws cs with
  | case1 => simp at named
  | case2 ws ih => exact ih matched (by simpa using named)
  | case3 ws d cs ih ihMany =>
    rcases Bool.or_eq_true_iff.mp matched with none | some
    · exact ih none (by simpa using named)
    · exact mem_cons_of_mem d (ihMany some named)
  | case4 => cases matched
  | case5 w ws d cs _ ih =>
    obtain ⟨takes, others⟩ := Bool.and_eq_true_iff.mp matched
    rcases mem_cons.mp named with rfl | later
    · rw [eq_of_beq takes]
      exact mem_cons_self
    · exact mem_cons_of_mem d (ih others later)

theorem Files.noSlash_fileName (path : String) : '/' ∉ (fileName path).toList := by
  unfold fileName
  cases last : (names path).getLast? with
  | none => simp
  | some name => exact noSlash_of_mem_pieces (mem_filter.mp (mem_of_getLast? last)).1

namespace Config

variable {patterns : List Loose} {name : String}

theorem anyFits_str : anyFits name (patterns.map .str) = .ok (patterns.any (Text.fits · name)) := by
  induction patterns with
  | nil => rfl
  | cons pattern patterns ih =>
    rw [map_cons, anyFits, ih, any_cons]
    cases Text.fits pattern name <;> rfl

def leavingOut (patterns : List Loose) (config : Config) : Config :=
  { config with excludePatterns := .arr (patterns.map .str) }

theorem excludes_leavingOut (config : Config) (path : String) :
    (config.leavingOut patterns).excludes path = .ok (patterns.any (Text.fits · (fileName path))) :=
  anyFits_str

end Config

namespace Linter

/-- Nothing is found in a file, whatever it holds and even if it cannot be read. -/
def Skips (linter : Linter) (path : String) : Prop := ∀ content, linter.lint path content = .ok ⟨path, []⟩

variable {config : Config} {checks : List Check} {patterns : List Loose} {path : String}

theorem skips_leavingOut : Skips ⟨config.leavingOut patterns, checks⟩ path ↔
    ∃ pattern ∈ patterns, Text.fits pattern (fileName path) = true := by
  rw [← any_eq_true]
  simp only [Skips, lint, Config.excludes_leavingOut, ok_bind]
  cases patterns.any (Text.fits · (fileName path)) with
  | true => exact iff_of_true (fun _ => rfl) rfl
  | false =>
    refine iff_of_false (fun skips => ?_) Bool.false_ne_true
    cases skips (.error "")

/-- The name of a file has no slash that a pattern could ask for. -/
theorem not_skips_of_slashes (slashes : ∀ pattern ∈ patterns, .char '/' ∈ Text.Wildcard.read pattern.points) :
    ¬Skips ⟨config.leavingOut patterns, checks⟩ path := by
  intro skips
  obtain ⟨pattern, mem, fits⟩ := skips_leavingOut.mp skips
  have slash := Text.Wildcard.mem_of_matchesAll fits (slashes pattern mem)
  exact Files.noSlash_fileName path (by simpa [Loose.ofString] using slash)

/-- The name of a file decides whether it is left out, and its folders play no part. So the patterns apply to
the path as well only where, with one that fits the path, one fits the name; and patterns that name a slash
leave out no file at all. -/
theorem skips_by_name (config : Config) (checks : List Check) (patterns : List Loose) (path : String) :
    (Skips ⟨config.leavingOut patterns, checks⟩ path ↔
      ∃ pattern ∈ patterns, Text.fits pattern (fileName path) = true) ∧
    ((∀ pattern ∈ patterns, .char '/' ∈ Text.Wildcard.read pattern.points) →
      ¬Skips ⟨config.leavingOut patterns, checks⟩ path) :=
  ⟨skips_leavingOut, not_skips_of_slashes⟩

/-- The pattern fits the path of the file. -/
theorem built_file_linted : Text.fits "build/**/*.g4" "build/a/B.g4" = true ∧
    ¬Skips ⟨Config.standard.leavingOut ["build/**/*.g4"], Check.all⟩ "build/a/B.g4" := by
  refine ⟨by cbv, not_skips_of_slashes ?_⟩
  decide +kernel

end Linter

end GrammarLint
