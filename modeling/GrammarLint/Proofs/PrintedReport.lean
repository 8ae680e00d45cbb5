import GrammarLint.Main
import GrammarLint.Proofs.JsonReport
import GrammarLint.Proofs.PrintedRows

open List

namespace GrammarLint

open Files (Workspace)
open Json (Limits Stand Unpaired Value gapsAt pointsOf spread)
open Text (CodePoint Loose)

/-- What is printed begins with the first character that is shown, if that is printable and no blank. -/
theorem Console.exists_print {width : Nat} {markup : Loose} {c : Char} {cs : List CodePoint}
    (shown : plain markup.points = .char c :: cs) (printable : Json.isPrintable c = true) (solid : c ≠ ' ')
    (positive : 0 < width) : ∃ ds, ((Item.text markup).print width).points = .char c :: ds := by
  have narrow : pointCells (.char c) = 1 :=
    Json.narrow_printable (forall_mem_singleton.mpr printable) _ mem_cons_self
  have noSpace : Text.isSpace (.char c) = false := by
    rw [Json.isSpace_printable printable]
    simpa using solid
  obtain ⟨ds, printed⟩ := exists_wrap (narrow.trans_le positive) positive noSpace cs
  exact ⟨ds, by rw [Item.print, shown, ← printed]⟩

theorem Text.Loose.points_of_string? {text : Loose} {s : String} (whole : text.string? = some s) :
    text.points = pointsOf s.toList := by
  rw [string?, Option.map_eq_some_iff] at whole
  obtain ⟨cs, chars, rfl⟩ := whole
  rw [String.toList_ofList, pointsOf]
  generalize text.points = points at chars
  induction points generalizing cs with
  | nil =>
    obtain rfl : [] = cs := by simpa using chars
    rfl
  | cons p points ih =>
    simp only [mapM_cons, Option.pure_def, Option.bind_eq_bind, Option.bind_eq_some_iff,
      Option.some.injEq] at chars
    obtain ⟨c, first, rest, others, rfl⟩ := chars
    cases p with
    | char d =>
      cases first
      rw [ih rest others, map_cons]
    | half place => cases first

theorem Text.Loose.string?_pointsOf (cs : List Char) :
    (Loose.mk (pointsOf cs)).string? = some (String.ofList cs) := by
  have chars : (pointsOf cs).mapM CodePoint.char? = some cs := by
    exact (Report.mapM_map_eq_some (f := CodePoint.char?) (g := CodePoint.char) (h := id) cs fun _ => rfl).trans
      (by rw [map_id])
  rw [string?, chars]
  rfl

namespace Json

variable {limits : Limits} {value : Value}

theorem read_nil : read limits [] ≠ .ok value := nofun

/-- No value begins with one of these letters. -/
theorem read_letter {c : Char} (letter : c ∈ ['F', 'W']) (cs : List Char) :
    read limits (c :: cs) ≠ .ok value := by
  simp only [mem_cons, not_mem_nil, or_false] at letter
  rcases letter with rfl | rfl <;> nofun

end Json

namespace Report

section Results

/-- An issue that has a place. -/
def Remark.ofIssue? (issue : Issue) : Option Remark :=
  issue.range.map fun range => {
    rule := issue.rule
    severity := issue.severity
    message := issue.message
    range
    suggestions := issue.suggestions.map fun s => (.ofString s.description, .ofString s.fix) }

def Page.ofResult (result : LintResult) : Page := ⟨result.file, result.issues.filterMap Remark.ofIssue?⟩

theorem mapM_ofFinding {issues : List Issue} {entries : List Entry}
    (placed : (issues.map Finding.ofIssue).mapM Entry.ofFinding = .ok entries) :
    entries = (issues.filterMap Remark.ofIssue?).map Remark.entry := by
  induction issues generalizing entries with
  | nil => cases placed; rfl
  | cons issue issues ih =>
    simp only [map_cons, mapM_cons] at placed
    obtain ⟨entry, first, placed⟩ := bind_ok placed
    obtain ⟨others, rest, same⟩ := bind_ok placed
    cases same
    obtain ⟨rule, severity, message, file, range, suggestions⟩ := issue
    cases range with
    | none => cases first
    | some range =>
      cases first
      rw [ih rest]
      simp [Remark.ofIssue?, Remark.entry, Finding.ofIssue]

/-- The sheets of a report are made of the results. -/
theorem ofFindings_results {results : List LintResult} {sheets : List Sheet}
    (placed : ofFindings (results.map FileFindings.ofResult) = .ok sheets) :
    sheets = (results.map Page.ofResult).map Page.sheet := by
  rw [ofFindings] at placed
  induction results generalizing sheets with
  | nil => cases placed; rfl
  | cons result results ih =>
    simp only [map_cons, mapM_cons] at placed
    obtain ⟨sheet, first, placed⟩ := bind_ok placed
    obtain ⟨others, rest, same⟩ := bind_ok placed
    cases same
    obtain ⟨entries, entered, same⟩ := bind_ok first
    cases same
    rw [ih rest, mapM_ofFinding entered]
    rfl

variable {result : LintResult} {text : Loose}

theorem texts_ofResult (mem : text ∈ (Page.ofResult result).texts) :
    ∃ s : String, text = .ofString s := by
  simp only [Page.texts, Page.ofResult, Remark.texts, mem_cons, mem_flatMap, mem_filterMap,
    Remark.ofIssue?, Option.map_eq_some_iff] at mem
  rcases mem with rfl | ⟨remark, ⟨issue, -, range, -, rfl⟩, rfl | rfl | ⟨s, among, either⟩⟩
  · exact ⟨_, rfl⟩
  · exact ⟨_, rfl⟩
  · exact ⟨_, rfl⟩
  · obtain ⟨suggestion, -, rfl⟩ := mem_map.mp among
    simp only [not_mem_nil, or_false] at either
    rcases either with rfl | rfl <;> exact ⟨_, rfl⟩

theorem texts_unpaired (mem : text ∈ (Page.ofResult result).texts) :
    Unpaired text.points := by
  obtain ⟨s, rfl⟩ := texts_ofResult mem
  exact Json.unpaired_ofString s

end Results

section Tabular

open Json (Tabular plainKey)

theorem Remark.tabular {remark : Remark} (inert : ∀ text ∈ remark.texts, Console.Inert text.points) :
    Tabular 3 (entryValue remark.entry) := by
  simp only [texts, forall_mem_cons, forall_mem_flatMap] at inert
  obtain ⟨⟨rule, -⟩, ⟨message, -⟩, each⟩ := inert
  have keys : ∀ key ∈ (["ruleId", "severity", "message", "line", "column", "endLine", "endColumn",
      "suggestions", "description", "fix"] : List Loose), plainKey key = true := by decide
  have severity : Console.Quiet (Loose.ofString remark.severity.name).points := by
    cases remark.severity <;> decide
  have suggestion (s : Value × Value) : (suggestionValue s).isContainer = true := rfl
  have suggestions : Tabular 2 (.arr (remark.entry.suggestions.map suggestionValue)) := by
    refine .arr (forall_mem_map.mpr fun s _ => suggestion s) ?_
    simp only [entry, map_map, forall_mem_map]
    intro s mem
    refine .obj (by simp [keys]) ?_
    simpa using .intro (Tabular.str (each s mem).1.1) (Tabular.str (each s mem).2.1.1)
  refine .obj (by simp [keys]) ?_
  simpa [entry, Tabular.int, Tabular.str rule, Tabular.str message, Tabular.str severity] using suggestions

variable (tally : Tally)

theorem tallyFields_plain : ∀ field ∈ tallyFields tally, plainKey field.1 = true := by
  have keys : ∀ key ∈ (["totalIssues", "errorCount", "warningCount", "infoCount"] : List Loose),
      plainKey key = true := by decide
  simp [tallyFields, keys]

theorem tallyFields_tabular {room : Nat} :
    ∀ field ∈ tallyFields tally, Tabular room field.2 := by
  simp [tallyFields, Tabular.int]

theorem Page.tabular {page : Page} (inert : ∀ text ∈ page.texts, Console.Inert text.points) :
    Tabular 5 (sheetValue page.sheet) := by
  simp only [texts, forall_mem_cons, forall_mem_flatMap] at inert
  have keys : ∀ key ∈ (["file", "issues", "summary"] : List Loose), plainKey key = true := by decide
  have remarks : Tabular 4 (.arr (page.sheet.entries.map entryValue)) := by
    refine .arr (forall_mem_map.mpr fun _ _ => rfl) ?_
    simp only [sheet, map_map, forall_mem_map]
    exact fun remark mem => Remark.tabular (inert.2 remark mem)
  have summary : Tabular 4 (.obj (tallyFields (Report.tally page.sheet.entries))) :=
    .obj (tallyFields_plain _) (tallyFields_tabular _)
  refine .obj (by simp [keys]) ?_
  simpa [sheet, Tabular.str inert.1.1] using And.intro remarks summary

theorem toValue_tabular {pages : List Page}
    (inert : ∀ page ∈ pages, ∀ text ∈ page.texts, Console.Inert text.points) :
    Tabular 7 (toValue (pages.map Page.sheet)) := by
  have keys : ∀ key ∈ (["results", "summary", "totalFiles"] : List Loose), plainKey key = true := by decide
  have sheets : Tabular 6 (.arr ((pages.map Page.sheet).map sheetValue)) := by
    refine .arr (forall_mem_map.mpr fun _ _ => rfl) ?_
    simp only [map_map, forall_mem_map]
    exact fun page mem => Page.tabular (inert page mem)
  have summary : Tabular 6 (.obj (("totalFiles", .int (pages.map Page.sheet).length) ::
      tallyFields (tally (allEntries (pages.map Page.sheet))))) :=
    .obj (forall_mem_cons.mpr ⟨keys _ (by simp), tallyFields_plain _⟩)
      (forall_mem_cons.mpr ⟨.int, tallyFields_tabular _⟩)
  refine .obj (by simp [keys]) ?_
  simpa using And.intro sheets summary

end Tabular

end Report

namespace Command

section Outputs

variable {w : Workspace} {status : Nat} {limits : Limits} {value : Value}

theorem Outcome.output_cons (w : Workspace) (status : Nat) (text : Loose) (prints : List Loose) :
    (Outcome.of w status (text :: prints)).output =
      text.string?.elim "" (· ++ (Outcome.of w status prints).output) := by
  cases whole : text.string? with
  | none => simp [Outcome.of, whole]
  | some s => simp [Outcome.of, whole]

/-- What is written begins as the first text that is printed, or it is empty. -/
theorem Outcome.output_front {text : Loose} {prints : List Loose} {front : List Char}
    {behind : List CodePoint} (begins : text.points = pointsOf front ++ behind) :
    (Outcome.of w status (text :: prints)).output.toList = [] ∨
      ∃ rest, (Outcome.of w status (text :: prints)).output.toList = front ++ rest := by
  rw [output_cons]
  cases whole : text.string? with
  | none => exact .inl rfl
  | some s =>
    right
    rw [Loose.points_of_string? whole, pointsOf, map_eq_append_iff] at begins
    obtain ⟨cs, ds, split, same, -⟩ := begins
    obtain rfl : cs = front := map_injective_iff.mpr (fun _ _ => CodePoint.char.inj) same
    exact ⟨_, by rw [Option.elim_some, String.toList_append, split, append_assoc]⟩

/-- Nothing can be read from what begins with one of these letters. -/
theorem Outcome.read_letter {c : Char} (letter : c ∈ ['F', 'W']) {text : Loose} {prints : List Loose}
    (begins : ∃ cs, text.points = .char c :: cs) :
    Json.read limits (Outcome.of w status (text :: prints)).output.toList ≠ .ok value := by
  obtain ⟨cs, begins⟩ := begins
  rcases @output_front w status text prints [c] cs begins with empty | ⟨rest, written⟩
  · rw [empty]
    exact Json.read_nil
  · rw [written]
    exact Json.read_letter letter rest

end Outputs

section Prints

variable {width : Nat} (positive : 0 < width)

include positive

theorem exists_print_warning (id : String) : ∃ cs, ((Console.Item.text
    (.ofString s!"[yellow]Warning: Unknown rule '{id}'[/yellow]")).print width).points = .char 'W' :: cs := by
  have same (s : String) : toString s = s := rfl
  have text : (Loose.ofString s!"[yellow]Warning: Unknown rule '{id}'[/yellow]").points = .char '[' ::
      .char 'y' :: (pointsOf "ellow".toList ++ .char ']' :: .char 'W' ::
        pointsOf ("arning: Unknown rule '".toList ++ (id.toList ++ "'[/yellow]".toList))) := by
    simp [Loose.ofString, pointsOf, same]
  obtain ⟨ds, shown⟩ := @Console.exists_plain_tagged (.char 'W') rfl (by decide) (by decide) (.char 'y')
    (pointsOf "ellow".toList) rfl (by decide)
    (pointsOf ("arning: Unknown rule '".toList ++ (id.toList ++ "'[/yellow]".toList)))
  exact Console.exists_print (by rw [text, shown]) (by decide) (by decide) positive

theorem exists_print_found (n : Nat) : ∃ cs, ((Console.Item.text
    (.ofString s!"Found {n} files to lint:")).print width).points = .char 'F' :: cs := by
  have same (s : String) : toString s = s := rfl
  have text : (Loose.ofString s!"Found {n} files to lint:").points = .char 'F' ::
      pointsOf ("ound ".toList ++ ((toString n).toList ++ " files to lint:".toList)) := by
    simp [Loose.ofString, pointsOf, same]
  obtain ⟨ds, shown⟩ := Console.exists_plain (c := .char 'F') rfl (by decide) (by decide)
    (pointsOf ("ound ".toList ++ ((toString n).toList ++ " files to lint:".toList)))
  exact Console.exists_print (by rw [text, shown]) (by decide) (by decide) positive

end Prints

section Settings

variable {config : Config}

theorem turn_outputFormat (id : Loose) (on : Bool) : (turn config id on).outputFormat = config.outputFormat :=
  rfl

theorem foldl_turn_outputFormat {α : Type} (ids : List α) (key : α → Loose) (on : Bool) :
    (ids.foldl (fun config id => turn config (key id) on) config).outputFormat = config.outputFormat := by
  induction ids generalizing config with
  | nil => rfl
  | cons id ids ih => rw [foldl_cons, ih, turn_outputFormat]

/-- The format that the options name is the one that is used. -/
theorem configure_outputFormat {loaded : Config} {options : LintOptions} {format : String}
    (configured : configure loaded options = .ok config) (named : options.format = some format) :
    config.outputFormat = .str format := by
  rw [configure, named] at configured
  obtain ⟨config, patterns, same⟩ := bind_ok configured
  cases same
  have kept : config.outputFormat = .str format := by
    unfold addPatterns at patterns
    split at patterns
    · cases patterns
      rfl
    · split at patterns
      · cases patterns
        rfl
      · cases patterns
  rw [withoutRules, foldl_turn_outputFormat]
  unfold onlyRules
  split
  · exact kept
  · rw [foldl_turn_outputFormat, foldl_turn_outputFormat _ Prod.fst, kept]

end Settings

/-- Behind a warning for each check that is not known comes what checking the files prints. -/
theorem perform_lint {w : Workspace} {options : LintOptions} {loaded config : Config} {width status : Nat}
    {verbose : Bool} {output : List Loose} (ended : lintWith w width verbose options config = .ok (status, output))
    (loads : Config.loadOrFind w w.here options.config = .ok loaded)
    (configures : configure loaded options = .ok config) (help : String) :
    perform w width verbose help (.lint options) = .of w status (
      say width ((unknownRules loaded options).map fun id =>
        .ofString s!"[yellow]Warning: Unknown rule '{id}'[/yellow]") ++ output) := by
  rw [perform, lint, loads]
  simp [configures, ended]

/-- A run over files that gets as far as its report: the configuration can be used, there are files and
each issue has a place. -/
structure LintRun (w : Workspace) (options : LintOptions) where
  loaded : Config
  config : Config
  results : List LintResult
  sheets : List Report.Sheet
  loads : Config.loadOrFind w w.here options.config = .ok loaded
  configures : configure loaded options = .ok config
  sound : config.problems = .ok []
  found : grammarFiles w options.files ≠ []
  lints : Linter.lintFiles { config := config } w (grammarFiles w options.files) = .ok results
  reports : Report.ofFindings ((results.map (·.atLeast options.severity)).map FileFindings.ofResult) =
    .ok sheets

namespace LintRun

variable {w : Workspace} {options : LintOptions} (run : LintRun w options)

def pages : List Report.Page := (run.results.map (·.atLeast options.severity)).map Report.Page.ofResult

theorem sheets_eq : run.sheets = run.pages.map Report.Page.sheet := Report.ofFindings_results run.reports

/-- In front of the report there are a warning for each check that is not known and the list of the files if
it is asked for. -/
theorem perform_eq (json : options.format = some "json") (width : Nat) (verbose : Bool) (help : String) :
    ∃ status, perform w width verbose help (.lint options) = .of w status (
      say width ((unknownRules run.loaded options).map fun id =>
        .ofString s!"[yellow]Warning: Unknown rule '{id}'[/yellow]") ++
      ((if verbose then say width (fileList (grammarFiles w options.files)) else []) ++
      say width [.ofString (Report.json run.sheets)])) := by
  have format := configure_outputFormat run.configures json
  have shows : showResults width run.config options.noColors (run.results.map (·.atLeast options.severity)) =
      .ok (say width [.ofString (Report.json run.sheets)]) := by
    rw [showResults, format, Report.render, run.reports]
    rfl
  have ended : ∃ status, lintWith w width verbose options run.config = .ok (status,
      (if verbose then say width (fileList (grammarFiles w options.files)) else []) ++
        say width [.ofString (Report.json run.sheets)]) := by
    have some : (grammarFiles w options.files).isEmpty = false := by simpa using run.found
    refine ⟨if (run.results.map (·.atLeast options.severity)).any (fun result => 0 < result.count .error)
      then 1 else 0, ?_⟩
    rw [lintWith, run.sound]
    simp only [isEmpty_nil, Bool.not_true, Bool.false_eq_true, if_false, some, run.lints, ok_bind, shows]
    rfl
  obtain ⟨status, ended⟩ := ended
  exact ⟨status, perform_lint ended run.loads run.configures help⟩

section Reading

variable {limits : Limits} {value : Value} {width : Nat}

/-- The value of a report can be written and read back. -/
theorem toValue_storable (deep : 7 ≤ limits.nesting) (positive : 0 < limits.digits)
    (short : ∀ n ∈ Report.numbers run.pages, (Nat.toDigits 10 n.natAbs).length ≤ limits.digits) :
    Json.Storable limits.digits limits.nesting (Report.toValue run.sheets) := by
  have few : ∀ n ∈ Report.numbers run.pages, n.natAbs < 10 ^ limits.digits := fun n mem =>
    (Nat.length_toDigits_le_iff (by decide) positive).mp (short n mem)
  have unpaired : ∀ page ∈ run.pages, ∀ text ∈ page.texts, Unpaired text.points :=
    forall_mem_map.mpr fun result _ text mem => Report.texts_unpaired mem
  obtain ⟨room, levels⟩ := Nat.exists_eq_add_of_le' deep
  rw [levels, run.sheets_eq]
  exact Report.toValue_storable unpaired few

theorem rows_regular (inert : ∀ page ∈ run.pages, ∀ text ∈ page.texts, Console.Inert text.points) :
    ∀ row ∈ (Report.toValue run.sheets).rows 0 [] false, row.Regular := by
  rw [run.sheets_eq]
  exact (Report.toValue_tabular inert).regular (by decide) ⟨0, by decide, .inl ⟨rfl, rfl⟩⟩

theorem points_json : (Loose.ofString (Report.json run.sheets)).points =
    pointsOf ((Report.toValue run.sheets).indented 0) := by
  rw [Report.json, Value.render, Loose.ofString, String.toList_ofList, pointsOf]

theorem read_report (positive : 0 < limits.digits)
    (storable : Json.Storable limits.digits limits.nesting (Report.toValue run.sheets)) :
    Json.read limits (Report.json run.sheets).toList = .ok (Report.toValue run.sheets) := by
  rw [Report.json, Value.render, String.toList_ofList]
  exact Json.read_indented positive storable.readable storable.noFloat

/-- Behind other prints the report cannot be read. -/
theorem read_preceded (json : options.format = some "json") (positive : 0 < width) {verbose : Bool}
    (preceded : unknownRules run.loaded options ≠ [] ∨ verbose = true) (help : String) :
    Json.read limits (perform w width verbose help (.lint options)).output.toList ≠ .ok value := by
  obtain ⟨status, ended⟩ := run.perform_eq json width verbose help
  rw [ended]
  cases unknown : unknownRules run.loaded options with
  | cons id ids => exact Outcome.read_letter (by decide) (exists_print_warning positive id)
  | nil =>
    obtain rfl : verbose = true := preceded.resolve_left (not_not_intro unknown)
    exact Outcome.read_letter (by decide) (exists_print_found positive _)

/-- By itself the report can be read where all of its rows survive. -/
theorem read_alone (json : options.format = some "json") (positive : 0 < limits.digits)
    (storable : Json.Storable limits.digits limits.nesting (Report.toValue run.sheets))
    (inert : ∀ page ∈ run.pages, ∀ text ∈ page.texts, Console.Inert text.points) (wide : 33 ≤ width)
    (known : unknownRules run.loaded options = []) (help : String) :
    Json.read limits (perform w width false help (.lint options)).output.toList = .ok value ↔
      value = Report.toValue run.sheets ∧
        ∀ row ∈ (Report.toValue run.sheets).rows 0 [] false, row.survives width = true := by
  have regular := run.rows_regular inert
  have text : Loose.ofString (Report.json run.sheets) = ⟨pointsOf ((Report.toValue run.sheets).indented 0)⟩ :=
    congrArg Loose.mk run.points_json
  obtain ⟨status, ended⟩ := run.perform_eq json width false help
  rw [ended, known, text]
  change Json.read limits (Outcome.of w status [Console.Item.print width _]).output.toList = _ ↔ _
  by_cases survives : ∀ row ∈ (Report.toValue run.sheets).rows 0 [] false, row.survives width = true
  · have none : (Outcome.of w status []).output.toList = [] := rfl
    rw [Json.print_survives storable.readable regular wide survives, Outcome.output_cons,
      Loose.string?_pointsOf, Option.elim_some, String.toList_append, String.toList_ofList, none,
      append_nil, Json.read_spread positive storable.readable storable.noFloat]
    exact ⟨fun same => ⟨(Except.ok.inj same).symm, survives⟩, fun both => congrArg Except.ok both.1.symm⟩
  · refine iff_of_false ?_ fun both => survives both.2
    obtain ⟨front, behind, printed, astray⟩ := Json.print_broken storable.readable regular wide survives
    rcases Outcome.output_front printed with empty | ⟨rest, written⟩
    · rw [empty]
      exact Json.read_nil
    · rw [written]
      intro read
      obtain ⟨s, ran⟩ := Json.run_of_read read
      rw [Stand.run_append, astray] at ran
      cases ran

end Reading

end LintRun

/-- The report of a run can always be read as JSON. What is printed can be read only if the report stands
alone, with no warning of a check that is not known and no list of files in front of it, and if all of its
rows survive on a console of the width. It is then the same value. -/
theorem printed_report_reads_iff {limits : Limits} {w : Workspace} {options : LintOptions} {width : Nat}
    (deep : 7 ≤ limits.nesting) (wide : 33 ≤ width) (run : LintRun w options)
    (json : options.format = some "json")
    (inert : ∀ page ∈ run.pages, ∀ text ∈ page.texts, Console.Inert text.points)
    (short : ∀ n ∈ Report.numbers run.pages, (Nat.toDigits 10 n.natAbs).length ≤ limits.digits)
    (verbose : Bool) (help : String) :
    Json.read limits (Report.json run.sheets).toList = .ok (Report.toValue run.sheets) ∧
      ∀ value, Json.read limits (perform w width verbose help (.lint options)).output.toList = .ok value ↔
        value = Report.toValue run.sheets ∧ unknownRules run.loaded options = [] ∧ verbose = false ∧
          ∀ row ∈ (Report.toValue run.sheets).rows 0 [] false, row.survives width = true := by
  have positive : 0 < limits.digits :=
    Nat.length_toDigits_pos.trans_le (short _ mem_cons_self)
  have storable := run.toValue_storable deep positive short
  refine ⟨run.read_report positive storable, fun value => ?_⟩
  -- Where the report does not stand alone, what stands in front of it begins with a letter.
  by_cases alone : unknownRules run.loaded options = [] ∧ verbose = false
  · obtain ⟨known, rfl⟩ := alone
    rw [run.read_alone json positive storable inert wide known help]
    exact and_congr_right fun _ => ⟨fun survive => ⟨known, rfl, survive⟩, fun all => all.2.2⟩
  · have preceded : unknownRules run.loaded options ≠ [] ∨ verbose = true := by
      rw [← Bool.not_eq_false]
      exact not_and_or.mp alone
    exact iff_of_false (run.read_preceded json (by omega) preceded help) fun both =>
      alone ⟨both.2.1, both.2.2.1⟩

section Garbled

def garbled : Workspace := ⟨⟨[(["a.g4"], .file [0xff])]⟩, []⟩

def jsonOptions (rules : List String) : LintOptions := { files := ["a.g4"], format := some "json", rules }

def garbledResult : LintResult :=
  ⟨"a.g4", [Linter.failure "a.g4" "'utf-8' codec can't decode byte 0xff in position 0: invalid start byte"]⟩

def garbledPage : Report.Page := .ofResult garbledResult

theorem grammarFiles_garbled : grammarFiles garbled ["a.g4"] = ["a.g4"] := by
  simp only [grammarFiles, Text.sorted, flatMap_singleton]
  decide +kernel

def garbledRun (rules : List String) (few : rules ∈ [[], ["X999"]]) :
    LintRun garbled (jsonOptions rules) where
  loaded := .standard
  config := onlyRules { Config.standard with outputFormat := .str "json" } rules
  results := [garbledResult]
  sheets := [garbledPage.sheet]
  loads := rfl
  configures := rfl
  sound := by
    simp only [mem_cons, not_mem_nil, or_false] at few
    rcases few with rfl | rfl <;> rfl
  found := by simp [jsonOptions, grammarFiles_garbled]
  lints := by
    rw [jsonOptions, grammarFiles_garbled]
    simp only [mem_cons, not_mem_nil, or_false] at few
    rcases few with rfl | rfl <;> rfl
  reports := rfl

theorem garbledPage_inert : ∀ page ∈ [garbledPage], ∀ text ∈ page.texts, Console.Inert text.points := by
  decide +kernel

theorem garbledPage_short : ∀ n ∈ Report.numbers [garbledPage], (Nat.toDigits 10 n.natAbs).length ≤ 1 := by
  decide +kernel

theorem garbledPage_broken : ((Report.toValue [garbledPage.sheet]).rows 0 [] false).all
    (·.survives standardWidth) = false := by
  decide +kernel

/-- On a wide console the report of the file survives, and on one of the standard width it does not. -/
theorem printed_report_reads_iff_garbled :
    Json.read ⟨7, 1⟩ (perform garbled 200 false "" (.lint (jsonOptions []))).output.toList =
        .ok (Report.toValue [garbledPage.sheet]) ∧
      ∀ value, Json.read ⟨7, 1⟩ (perform garbled standardWidth false ""
        (.lint (jsonOptions []))).output.toList ≠ .ok value := by
  have survives : ((Report.toValue [garbledPage.sheet]).rows 0 [] false).all (·.survives 200) = true := by
    decide +kernel
  have iff {width : Nat} (wide : 33 ≤ width) := (@printed_report_reads_iff ⟨7, 1⟩ _ _ width (by decide) wide
    (garbledRun [] (by decide)) rfl garbledPage_inert garbledPage_short false "").2
  refine ⟨(iff (by decide) _).mpr ⟨rfl, rfl, rfl, all_eq_true.mp survives⟩, fun value read => ?_⟩
  have all := all_eq_true.mpr ((iff (by decide) value).mp read).2.2.2
  exact Bool.false_ne_true (garbledPage_broken.symm.trans all)

/-- The report of the run can be read by itself, and what is printed of it cannot. -/
def LintRun.IsLost {w : Workspace} {options : LintOptions} (run : LintRun w options) (limits : Limits)
    (width : Nat) : Prop :=
  (∀ page ∈ run.pages, ∀ text ∈ page.texts, Console.Inert text.points) ∧
    Json.read limits (Report.json run.sheets).toList = .ok (Report.toValue run.sheets) ∧
    ∀ value, Json.read limits (perform w width false "" (.lint options)).output.toList ≠ .ok value

/-- On a console of the standard width the message of the file is broken. On a wide one the report follows a
warning if the options name a check that is not known. -/
theorem printed_report_unreadable : (garbledRun [] (by decide)).IsLost ⟨7, 1⟩ standardWidth ∧
    (garbledRun ["X999"] (by decide)).IsLost ⟨7, 1⟩ 200 := by
  have storable := @LintRun.toValue_storable _ _ (garbledRun [] (by decide)) ⟨7, 1⟩ (by decide) (by decide)
    garbledPage_short
  have report := (garbledRun [] (by decide)).read_report (by decide) storable
  have unknown : unknownRules .standard (jsonOptions ["X999"]) ≠ [] := by decide +kernel
  refine ⟨⟨garbledPage_inert, report, fun value read => ?_⟩, ⟨garbledPage_inert, report, fun value => ?_⟩⟩
  · have both := ((garbledRun [] (by decide)).read_alone rfl (by decide) storable garbledPage_inert
      (by decide) rfl "").mp read
    exact Bool.false_ne_true (garbledPage_broken.symm.trans (all_eq_true.mpr both.2))
  · exact (garbledRun ["X999"] (by decide)).read_preceded rfl (by decide) (.inl unknown) ""

end Garbled

end Command

end GrammarLint
