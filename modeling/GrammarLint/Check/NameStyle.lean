import GrammarLint.Text.CaseMap
import GrammarLint.Text.LetterCase
import GrammarLint.Text.Search

namespace GrammarLint

inductive NameStyle where
  | camelCase
  | snakeCase
  | pascalCase
deriving DecidableEq, Repr

namespace NameStyle

def name : NameStyle → String
  | .camelCase => "camelCase"
  | .snakeCase => "snake_case"
  | .pascalCase => "PascalCase"

def isAsciiLower (c : Char) : Bool := decide ('a' ≤ c) && decide (c ≤ 'z')

def isAsciiUpper (c : Char) : Bool := decide ('A' ≤ c) && decide (c ≤ 'Z')

def isAsciiDigit (c : Char) : Bool := decide ('0' ≤ c) && decide (c ≤ '9')

/-- The name without a line feed at its end. -/
def body (name : List Char) : List Char :=
  if name.getLast? == some '\n' then name.dropLast else name

/-- A rule name in camel case: an ASCII lower case letter, then ASCII letters and digits, some of
them upper case. -/
def isRuleCamel (name : List Char) : Bool :=
  match body name with
  | [] => false
  | c :: rest =>
    isAsciiLower c && (rest.all fun c => isAsciiLower c || isAsciiUpper c || isAsciiDigit c) &&
      rest.any isAsciiUpper

/-- A rule name in snake case: an ASCII lower case letter, then ASCII lower case letters, digits
and underscores, of which there is one. -/
def isRuleSnake (name : List Char) : Bool :=
  match body name with
  | [] => false
  | c :: rest =>
    isAsciiLower c && (rest.all fun c => isAsciiLower c || isAsciiDigit c || c == '_') &&
      rest.contains '_'

/-- A label in camel case: a lower case letter first, some upper case one, no underscore. -/
def isLabelCamel : List Char → Bool
  | [] => false
  | c :: rest => Text.isLower c && !(c :: rest).contains '_' && rest.any Text.isUpper

/-- A label in snake case: lower case with an underscore. -/
def isLabelSnake (name : List Char) : Bool := name.contains '_' && Text.allLower name

/-- A label in Pascal case: an upper case letter first, no underscore. -/
def isLabelPascal : List Char → Bool
  | [] => false
  | c :: rest => Text.isUpper c && !(c :: rest).contains '_'

/-- The words of a name joined in camel case; a name of one word gets a small first letter. -/
def toCamel (name : List Char) : List Char :=
  if name.contains '_' then
    match Text.splitAt '_' name with
    | [] => []
    | first :: rest => Text.toLower first ++ rest.flatMap Text.capitalize
  else
    match name with
    | [] => []
    | c :: rest => Text.toLower [c] ++ rest

/-- An underscore in front of each ASCII capital, then all in lower case, and no underscore at
the front. -/
def toSnake (name : List Char) : List Char :=
  (Text.toLower (name.flatMap fun c => if isAsciiUpper c then ['_', c] else [c])).dropWhile
    (· == '_')

/-- The words of a name joined in Pascal case; a name of one word gets a capital. -/
def toPascal (name : List Char) : List Char :=
  if name.contains '_' then (Text.splitAt '_' name).flatMap Text.capitalize
  else
    match name with
    | [] => []
    | c :: rest => Text.toUpper [c] ++ rest

def convert (style : NameStyle) (name : String) : String :=
  String.ofList <| match style with
    | .camelCase => toCamel name.toList
    | .snakeCase => toSnake name.toList
    | .pascalCase => toPascal name.toList

end NameStyle

end GrammarLint
