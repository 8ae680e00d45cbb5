import GrammarLint.Command.Similar
import GrammarLint.Text.Quoted

namespace GrammarLint.Command

structure Spec where
  names : List String
  takesValue : Bool
deriving DecidableEq, Repr

structure Given where
  spec : Spec
  value : Option String
deriving DecidableEq, Repr

inductive UsageError where
  | noSuchOption (name : String) (similar : List String)
  | needsValue (name : String)
  | takesNoValue (name : String)
  | missingArgument (name : String)
  | missingCommand
  | noSuchCommand (name : String)
  | extraArguments (arguments : List String)
  | noSuchPath (place path : String)
  | notAmong (place value : String) (choice : List String)
deriving DecidableEq, Repr

namespace UsageError

def message : UsageError → String
  | noSuchOption name [] => s!"No such option: {name}"
  | noSuchOption name [similar] => s!"No such option: {name} Did you mean {similar}?"
  | noSuchOption name similar =>
    let names := String.intercalate ", " similar
    s!"No such option: {name} (Possible options: {names})"
  | needsValue name => s!"Option {Text.quoted name} requires an argument."
  | takesNoValue name => s!"Option {Text.quoted name} does not take a value."
  | missingArgument name => s!"Missing argument '{name}'."
  | missingCommand => "Missing command."
  | noSuchCommand name => s!"No such command {Text.quoted name}."
  | extraArguments arguments =>
    let noun := if arguments.length == 1 then "argument" else "arguments"
    let words := String.intercalate " " arguments
    s!"Got unexpected extra {noun} ({words})"
  | noSuchPath place path => s!"Invalid value for {place}: Path {Text.quoted path} does not exist."
  | notAmong place value choice =>
    let names := String.intercalate ", " (choice.map fun (name : String) => Text.quoted name)
    s!"Invalid value for {place}: {Text.quoted value} is not one of {names}."

def isBare : UsageError → Bool
  | needsValue _ => true
  | takesNoValue _ => true
  | _ => false

end UsageError

def isShort (name : String) : Bool := name.length == 2 && name.toList.head? == some '-'

def longNames (specs : List Spec) : List String :=
  (specs.flatMap (·.names)).filter (!isShort ·)

def lookUp (specs : List Spec) (name : String) : Option Spec :=
  specs.find? (·.names.contains name)

/-- The options in a word of short ones, and the words that are left. The first option with a
value takes the rest of the word, or the next word. -/
def readShort (specs : List Spec) (rest : List String) :
    List Char → Except UsageError (List Given × List String)
  | [] => .ok ([], rest)
  | c :: cs =>
    let name := String.ofList ['-', c]
    match lookUp specs name with
    | none => .error (.noSuchOption name [])
    | some spec =>
      if spec.takesValue then
        match cs, rest with
        | [], [] => .error (.needsValue name)
        | [], value :: rest => .ok ([⟨spec, some value⟩], rest)
        | cs, rest => .ok ([⟨spec, some (String.ofList cs)⟩], rest)
      else do
        let (given, rest) ← readShort specs rest cs
        return (⟨spec, none⟩ :: given, rest)

/-- The options in a word that starts with a hyphen, and the words that are left. -/
def readWord (specs : List Spec) (word : String) (rest : List String) :
    Except UsageError (List Given × List String) :=
  let cs := word.toList
  let name := String.ofList (cs.takeWhile (· != '='))
  let inline := if cs.contains '=' then some (String.ofList ((cs.dropWhile (· != '=')).drop 1))
    else none
  if (longNames specs).contains name then
    match lookUp specs name, inline, rest with
    | some ⟨names, true⟩, some value, rest => .ok ([⟨⟨names, true⟩, some value⟩], rest)
    | some ⟨names, true⟩, none, value :: rest => .ok ([⟨⟨names, true⟩, some value⟩], rest)
    | some ⟨_, true⟩, none, [] => .error (.needsValue name)
    | some _, some _, _ => .error (.takesNoValue name)
    | some spec, none, rest => .ok ([⟨spec, none⟩], rest)
    | none, _, _ => .error (.noSuchOption name [])
  else if word.startsWith "--" then .error (.noSuchOption name (similar name (longNames specs)))
  else readShort specs rest (cs.drop 1)

structure Parsed where
  given : List Given
  words : List String

/-- Reads options up to a double hyphen. Other words are gathered, or, if `mixed` is not set, end
the options. Each step takes a word, so the number of words is fuel enough. -/
def readOptions (specs : List Spec) (mixed : Bool) :
    (fuel : Nat) → List String → Except UsageError Parsed
  | 0, words => .ok ⟨[], words⟩
  | _, [] => .ok ⟨[], []⟩
  | fuel + 1, word :: rest =>
    if word == "--" then .ok ⟨[], rest⟩
    else if word.startsWith "-" && word != "-" then do
      let (given, rest) ← readWord specs word rest
      let parsed ← readOptions specs mixed fuel rest
      return ⟨given ++ parsed.given, parsed.words⟩
    else if mixed then do
      let parsed ← readOptions specs mixed fuel rest
      return ⟨parsed.given, word :: parsed.words⟩
    else .ok ⟨[], word :: rest⟩

def read (specs : List Spec) (mixed : Bool) (words : List String) : Except UsageError Parsed :=
  readOptions specs mixed words.length words

namespace Parsed

def values (parsed : Parsed) (spec : Spec) : List String :=
  (parsed.given.filter (·.spec == spec)).filterMap (·.value)

/-- The value of an option that counts, which is the last one. -/
def value? (parsed : Parsed) (spec : Spec) : Option String := (parsed.values spec).getLast?

def has (parsed : Parsed) (spec : Spec) : Bool := parsed.given.any (·.spec == spec)

/-- The options that were given, each once, in the order of their first places. -/
def specs (parsed : Parsed) : List Spec := (parsed.given.map (·.spec)).eraseDups

end Parsed

end GrammarLint.Command
