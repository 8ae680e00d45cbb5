import GrammarLint.Json.Display

namespace GrammarLint

open Json (Value)
open Text (Loose)

/-- Why a value of a configuration or report cannot be used where it stands. The names are those
of kinds of values. -/
inductive Fault where
  | noAttribute (kind part : String)
  /-- A number is compared with a value that is none. -/
  | notOrdered (kind other : String)
  /-- Membership is asked of a value that has no members. -/
  | notContainer (kind : String)
  | notIterable (kind : String)
  | arrayKey
  | textKey
  /-- A value that cannot be a member of a set is looked up in one. -/
  | unhashable (kind : String)
  | notSeverity (value : Value)
  | notGrammarKind (name : String)
  | unknownCheck (id : String)
  | unknownFormat (value : Value)
  /-- A value other than a text is to be written as XML. -/
  | notWritable (value : Value)
  /-- A list of values is to be written where only a text can be. -/
  | notText (kind : String)
  /-- A value other than a text is to stand in a table. -/
  | notShowable (kind : String)
  | notPath (kind : String)
  | tooLong (most : Nat)

def Fault.message : Fault → Loose
  | .noAttribute kind part => s!"'{kind}' object has no attribute '{part}'"
  | .notOrdered kind other => s!"'>' not supported between instances of '{kind}' and '{other}'"
  | .notContainer kind => s!"argument of type '{kind}' is not iterable"
  | .notIterable kind => s!"'{kind}' object is not iterable"
  | .arrayKey => "list indices must be integers or slices, not str"
  | .textKey => "string indices must be integers, not 'str'"
  | .unhashable kind => s!"unhashable type: '{kind}'"
  | .notSeverity value => s!"{value.shown} is not a valid Severity"
  | .notGrammarKind name => s!"{Text.quoted name} is not a valid GrammarType"
  | .unknownCheck id => s!"Rule {id} not found"
  | .unknownFormat value =>
    "Unknown format: " ++ value.display ++ ". Available: ['text', 'json', 'xml']"
  | .notWritable value => s!"cannot serialize {value.shown} (type {value.kindName})"
  | .notText kind => s!"string argument expected, got '{kind}'"
  | .notShowable kind =>
    s!"unable to render {kind}; a string or other renderable object is required"
  | .notPath kind => s!"expected str, bytes or os.PathLike object, not {kind}"
  | .tooLong most => s!"Exceeds the limit ({most} digits) for integer string conversion; " ++
      "use sys.set_int_max_str_digits() to increase the limit"

end GrammarLint
