import GrammarLint.Command.Lint
import GrammarLint.Command.Options
import GrammarLint.Command.Rules

namespace GrammarLint.Command

open Files (Workspace)
open Text (Loose)

def helpSpec : Spec := ⟨["--help"], false⟩
def versionSpec : Spec := ⟨["--version"], false⟩
def verboseSpec : Spec := ⟨["--verbose", "-v"], false⟩
def configSpec : Spec := ⟨["--config", "-c"], true⟩
def formatSpec : Spec := ⟨["--format", "-f"], true⟩
def noColorsSpec : Spec := ⟨["--no-colors"], false⟩
def excludeSpec : Spec := ⟨["--exclude"], true⟩
def ruleSpec : Spec := ⟨["--rule"], true⟩
def disableSpec : Spec := ⟨["--disable-rule"], true⟩
def severitySpec : Spec := ⟨["--severity"], true⟩
def overwriteSpec : Spec := ⟨["--overwrite"], false⟩

inductive Name where
  | lint
  | init
  | rules
  | validateConfig
deriving DecidableEq, Repr

namespace Name

def text : Name → String
  | lint => "lint"
  | init => "init"
  | rules => "rules"
  | validateConfig => "validate-config"

def all : List Name := [lint, init, rules, validateConfig]

def ofText? (text : String) : Option Name := all.find? (·.text == text)

def specs : Name → List Spec
  | lint => [configSpec, formatSpec, noColorsSpec, excludeSpec, ruleSpec, disableSpec, severitySpec,
      helpSpec]
  | init => [overwriteSpec, helpSpec]
  | rules => [helpSpec]
  | validateConfig => [helpSpec]

def synopsis : Name → String
  | lint => "[OPTIONS] FILES..."
  | init => "[OPTIONS] [OUTPUT_PATH]"
  | rules => "[OPTIONS]"
  | validateConfig => "[OPTIONS] CONFIG_PATH"

end Name

/-- Where a usage error is found: the words of the command so far, and what may follow. -/
structure Context where
  path : String
  synopsis : String

def Context.group (program : String) : Context := ⟨program, "[OPTIONS] COMMAND [ARGS]..."⟩

def Context.command (program : String) (name : Name) : Context :=
  ⟨s!"{program} {name.text}", name.synopsis⟩

def Context.usage (context : Context) : String := s!"Usage: {context.path} {context.synopsis}\n"

def usageText (context : Context) (error : UsageError) : String :=
  (if error.isBare then "" else s!"{context.usage}Try '{context.path} --help' for help.\n\n") ++
    s!"Error: {error.message}\n"

def helpText (context : Context) (specs : List Spec) : String :=
  context.usage ++ "\nOptions:\n" ++
    String.join (specs.map fun spec =>
      let names := String.intercalate ", " spec.names
      s!"  {names}\n")

def choice (spec : Spec) : List String :=
  if spec == formatSpec then formatNames
  else if spec == severitySpec then Severity.all.map Severity.name
  else []

def placeOf (spec : Spec) : String := String.intercalate " / " (spec.names.map fun name => s!"'{name}'")

/-- The value of an option can be used: a path leads somewhere, a choice is one of its names. -/
def checkValue (w : Workspace) (parsed : Parsed) (spec : Spec) : Except UsageError Unit :=
  match parsed.value? spec with
  | none => .ok ()
  | some value =>
    if spec == configSpec && !w.present value then .error (.noSuchPath (placeOf spec) value)
    else if choice spec != [] && !(choice spec).contains value then
      .error (.notAmong (placeOf spec) value (choice spec))
    else .ok ()

def checkPath (w : Workspace) (name path : String) : Except UsageError Unit :=
  if w.present path then .ok () else .error (.noSuchPath s!"'{name}'" path)

inductive Task where
  | help
  | lint (options : LintOptions)
  | init (path : String) (overwrite : Bool)
  | rules
  | validateConfig (path : String)

def lintTask (w : Workspace) (parsed : Parsed) : Except UsageError Task := do
  parsed.specs.forM (checkValue w parsed)
  if parsed.words.isEmpty then .error (.missingArgument "FILES...") else
  parsed.words.forM (checkPath w "FILES...")
  return .lint {
    files := parsed.words
    config := parsed.value? configSpec
    format := parsed.value? formatSpec
    noColors := parsed.has noColorsSpec
    exclude := parsed.values excludeSpec
    rules := parsed.values ruleSpec
    disabled := parsed.values disableSpec
    severity := (parsed.value? severitySpec).bind fun name => Severity.all.find? (·.name == name) }

def noMore (words : List String) : Except UsageError Unit :=
  if words.isEmpty then .ok () else .error (.extraArguments words)

def readTask (w : Workspace) (name : Name) (words : List String) : Except UsageError Task := do
  let parsed ← read name.specs true words
  if parsed.has helpSpec then return .help
  match name with
  | .lint => lintTask w parsed
  | .init =>
    noMore (parsed.words.drop 1)
    return .init (parsed.words.head?.getD "antlr-lint.json") (parsed.has overwriteSpec)
  | .rules =>
    noMore parsed.words
    return .rules
  | .validateConfig =>
    match parsed.words with
    | [] => .error (.missingArgument "CONFIG_PATH")
    | path :: rest =>
      checkPath w "CONFIG_PATH" path
      noMore rest
      return .validateConfig path

def createConfig (w : Workspace) (width : Nat) (path : String) (overwrite : Bool) : Outcome :=
  if w.present (Files.normalPath path) && !overwrite then
    .of w 1 (say width [s!"[red]Configuration file already exists: {path}[/red]",
      "Use --overwrite to replace it"])
  else
    match Config.standard.save w path with
    | .ok w => .of w 0 (say width [s!"[green]Created configuration file: {path}[/green]"])
    | .error error =>
      .of w 1 (say width [s!"[red]Error creating configuration file: {error.message}[/red]"])

def validate (w : Workspace) (width : Nat) (path : String) : Nat × List Loose :=
  let invalid (message : Loose) : Nat × List Loose :=
    (1, say width ["[red]Error validating configuration: " ++ message ++ "[/red]"])
  match Config.loadOrFind w w.here (some path) with
  | .error error => invalid error.message
  | .ok config =>
    match config.problems with
    | .error fault => invalid fault.message
    | .ok [] => (0, say width [s!"[green]Configuration file '{path}' is valid[/green]"])
    | .ok problems =>
      (1, say width (.ofString s!"[red]Configuration file '{path}' has errors:[/red]" ::
        problemList problems))

def perform (w : Workspace) (width : Nat) (verbose : Bool) (help : String) : Task → Outcome
  | .help => ⟨0, help, w⟩
  | .lint options =>
    let (status, prints) := lint w width verbose options
    .of w status prints
  | .init path overwrite => createConfig w width path overwrite
  | .rules => .of w 0 (say width (ruleLines.map .ofString))
  | .validateConfig path =>
    let (status, prints) := validate w width path
    .of w status prints

def versionText : String := "antlr-lint, version 0.1.3\n"

def groupSpecs : List Spec := [versionSpec, verboseSpec, helpSpec]

/-- What the options before the name of a command ask for at once, if anything. -/
def eager (program : String) (parsed : Parsed) : Option String :=
  parsed.specs.findSome? fun spec =>
    if spec == versionSpec then some versionText
    else if spec == helpSpec then some (helpText (.group program) groupSpecs)
    else none

/-- A word that does not start with a letter or digit. -/
def looksLikeOption (word : String) : Bool :=
  word.toList.head?.any fun c => !Text.isLetterOrNumber c

/-- Why there is no command of a name, or what options in its place ask for. -/
def noCommand (program name : String) (words : List String) : Except UsageError String :=
  if looksLikeOption name then do
    match eager program (← read groupSpecs false (name :: words)) with
    | some text => return text
    | none => .error (.noSuchCommand name)
  else .error (.noSuchCommand name)

/-- Runs a command line, where `program` is the name of the program. -/
def run (program : String) (width : Nat) (w : Workspace) (words : List String) : Outcome :=
  let refuse (context : Context) (error : UsageError) : Outcome := ⟨2, usageText context error, w⟩
  let group := Context.group program
  if words.isEmpty then ⟨2, helpText group groupSpecs, w⟩
  else
    match read groupSpecs false words with
    | .error error => refuse group error
    | .ok parsed =>
      match eager program parsed, parsed.words with
      | some text, _ => ⟨0, text, w⟩
      | none, [] => refuse group .missingCommand
      | none, name :: rest =>
        match Name.ofText? name with
        | none =>
          match noCommand program name rest with
          | .ok text => ⟨0, text, w⟩
          | .error error => refuse group error
        | some command =>
          let context := Context.command program command
          match readTask w command rest with
          | .error error => refuse context error
          | .ok task =>
            perform w width (parsed.has verboseSpec) (helpText context command.specs) task

end GrammarLint.Command
