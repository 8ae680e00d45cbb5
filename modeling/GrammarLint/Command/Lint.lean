import GrammarLint.Console.Print
import GrammarLint.Session

namespace GrammarLint.Command

open Files (Workspace)
open Json (Value)
open Text (Loose)

/-- How a command ended: its exit status, what it printed and the files after it. -/
structure Outcome where
  status : Nat
  output : String
  workspace : Workspace

/-- Texts with tags on a console, each printed by itself. -/
def say (width : Nat) (markups : List Loose) : List Loose :=
  markups.map fun markup => (Console.Item.text markup).print width

/-- The outcome of a command that prints some texts. One with half of a pair cannot be written:
there the command fails. -/
def Outcome.of (w : Workspace) (status : Nat) (prints : List Loose) : Outcome :=
  let strings := prints.map Loose.string?
  let written := String.join ((strings.takeWhile Option.isSome).filterMap id)
  ⟨if strings.all Option.isSome then status else 1, written, w⟩

structure LintOptions where
  files : List String
  config : Option String := none
  format : Option String := none
  noColors : Bool := false
  exclude : List String := []
  rules : List String := []
  disabled : List String := []
  severity : Option Severity := none

/-- Adds patterns of files to leave out, if there are any. -/
def addPatterns (config : Config) (patterns : List String) : Except Fault Config :=
  if patterns.isEmpty then .ok config
  else
    match config.excludePatterns with
    | .arr items =>
      .ok { config with excludePatterns := .arr (items ++ patterns.map fun p => .str p) }
    | value => .error (.noAttribute value.kindName "extend")

/-- Turns a check on or off, if the configuration has it. -/
def turn (config : Config) (id : Loose) (on : Bool) : Config :=
  config.adjust id fun rule => { rule with enabled := .bool on }

/-- Turns all checks off but those named, if any are. -/
def onlyRules (config : Config) (ids : List String) : Config :=
  if ids.isEmpty then config
  else ids.foldl (fun config (id : String) => turn config id true)
    (config.rules.foldl (fun config entry => turn config entry.1 false) config)

def withoutRules (config : Config) (ids : List String) : Config :=
  ids.foldl (fun config (id : String) => turn config id false) config

def configure (config : Config) (options : LintOptions) : Except Fault Config := do
  let config := match options.format with
    | some format => { config with outputFormat := .str format }
    | none => config
  let config ← addPatterns config options.exclude
  return withoutRules (onlyRules config options.rules) options.disabled

def unknownRules (config : Config) (options : LintOptions) : List String :=
  (options.rules ++ options.disabled).filter fun id => (config.rule? id).isNone

def showResults (width : Nat) (config : Config) (noColors : Bool) (results : List LintResult) :
    Except Fault (List Loose) := do
  let findings := results.map FileFindings.ofResult
  match config.outputFormat.string? with
  | some "text" => return [← Report.print width (!noColors) findings]
  | _ => return say width [← Report.render config.outputFormat findings]

def fileList (files : List String) : List Loose :=
  (s!"Found {files.length} files to lint:" :: files.map (s!"  • {·}") ++ [""]).map .ofString

def problemList (problems : List ConfigProblem) : List Loose :=
  problems.map fun problem => "  • " ++ problem.message

/-- Checks files with a configuration: the exit status and what is printed. -/
def lintWith (w : Workspace) (width : Nat) (verbose : Bool) (options : LintOptions)
    (config : Config) : Except Fault (Nat × List Loose) := do
  let problems ← config.problems
  if !problems.isEmpty then
    return (1, say width ("[red]Configuration errors:[/red]" :: problemList problems))
  let files := grammarFiles w options.files
  if files.isEmpty then return (0, say width ["[yellow]No .g4 files found[/yellow]"])
  let listed := if verbose then say width (fileList files) else []
  let results ← Linter.lintFiles { config := config } w files
  let shown := results.map (·.atLeast options.severity)
  let report ← showResults width config options.noColors shown
  let failed := shown.any fun result => 0 < result.count .error
  return (if failed then 1 else 0, listed ++ report)

/-- Stands for the details of a failure. -/
def failureDetails : String := "<traceback>"

def failure (width : Nat) (verbose : Bool) (message : Loose) : Nat × List Loose :=
  (1, say width ["[red]Error: " ++ message ++ "[/red]"] ++
    if verbose then [.ofString failureDetails] else [])

def lint (w : Workspace) (width : Nat) (verbose : Bool) (options : LintOptions) :
    Nat × List Loose :=
  match Config.loadOrFind w w.here options.config with
  | .error error => failure width verbose error.message
  | .ok loaded =>
    match configure loaded options with
    | .error fault => failure width verbose fault.message
    | .ok config =>
      let warnings := say width ((unknownRules loaded options).map fun id =>
        .ofString s!"[yellow]Warning: Unknown rule '{id}'[/yellow]")
      let (status, output) := match lintWith w width verbose options config with
        | .ok ended => ended
        | .error fault => failure width verbose fault.message
      (status, warnings ++ output)

end GrammarLint.Command
