import GrammarLint.Check.Basic
import GrammarLint.Text.CaseMap

namespace GrammarLint.Check

def quotes : List Char := ['\'', '"']

def containsAny (text : String) (parts : List String) : Bool := parts.any (Text.contains text)

def isCatchAllName (r : Rule) : Bool :=
  ["ANY", "ERROR", "UNKNOWN"].contains (String.ofList (Text.toUpper r.name.toList))

/-- The rule has elements and takes whatever no other rule takes. -/
def isCatchAll (r : Rule) : Bool :=
  r.elements.any fun e => e.text == "." || e.text == "ANY" || isCatchAllName r

def catchAll : Check where
  id := "S002"
  title := "Incomplete Input Parsing"
  description := "Lexer should have an ANY rule to catch unhandled input"
  run g config :=
    if !config.enabled.truthy || g.kind == .parser || g.lexerRules.any isCatchAll then .ok []
    else .ok <| g.lexerRules.getLast?.toList.map fun r =>
      .of "S002" g config r.range "Lexer missing catch-all rule for unhandled input"
        "Add ANY rule at end of lexer" "ANY: .;"

structure LiteralUse where
  rule : Rule
  element : Element

/-- The literals of the lexer rules of a mode, in order. A single quote is none. -/
def literalUses (rules : List Rule) (mode : Option String) : List LiteralUse :=
  (rules.filter (·.mode == mode)).flatMap fun r =>
    (r.elements.filter fun e => e.isLiteral && decide (2 ≤ e.text.length)).map fun e => ⟨r, e⟩

def sharedLiteral : Check where
  id := "S003"
  title := "Ambiguous String Literals"
  description := "String literals should not appear in multiple lexer rules"
  run g config := .ok <|
    (g.lexerRules.map (·.mode)).eraseDups.flatMap fun mode =>
      let uses := literalUses g.lexerRules mode
      (uses.map (·.element.text)).eraseDups.flatMap fun literal =>
        let here := uses.filter (·.element.text == literal)
        let rules := Rule.distinct (here.map (·.rule))
        if rules.length ≤ 1 then []
        else
          let place := match mode with
            | some mode => if mode.isEmpty then "" else s!" in mode '{mode}'"
            | none => ""
          let names := Text.sortedCommaList (rules.map (·.name))
          here.map fun use =>
            .of "S003" g config use.element.range
              s!"String literal {literal} is ambiguous{place} (used in multiple lexer rules: {names})"
              "Use unique string literals or consolidate rules"
              s!"Consider using a shared token rule for {literal}"

def literals (r : Rule) : List String :=
  ((r.elements.filter Element.isLiteral).map (·.text)).eraseDups

def firstText (r : Rule) : String := (r.alternatives.head?.bind (·.firstText?)).getD ""

/-- A text that looks like the start of an identifier. -/
def isIdentifierText (text : String) : Bool :=
  containsAny text ["[a-zA-Z]", "[A-Z]", "[a-z]", "Letter", "LETTER"]

/-- Literals only, in all alternatives. -/
def isKeywordLike (r : Rule) : Bool :=
  !r.alternatives.isEmpty && r.elements.all Element.isLiteral

def hasDigits (text : String) : Bool :=
  containsAny text ["0-9", "\\d", "DIGIT", "[0123456789]"] ||
    Text.allDigits (Text.strip quotes text.toList)

def upperName (r : Rule) : String := String.ofList (Text.toUpper r.name.toList)

def isNumeric (r : Rule) : Bool :=
  containsAny (upperName r) ["NUMBER", "NUM", "INT", "FLOAT", "DECIMAL", "DIGIT"] ||
    r.elements.any fun e => hasDigits e.text

/-- What numbers a rule is for, by the first alternative that has digits. -/
inductive NumberType where
  | integer
  | float
  | unknown
deriving DecidableEq, Repr

def NumberType.name : NumberType → String
  | .integer => "integer"
  | .float => "float"
  | .unknown => "unknown"

def numberType (r : Rule) : NumberType :=
  match r.alternatives.find? fun a => a.elements.any fun e => hasDigits e.text with
  | none => .unknown
  | some a => if a.elements.any fun e => e.text.toList.contains '.' then .float else .integer

/-- Two rules for numbers can take the same text. -/
def numbersOverlap (r s : Rule) : Bool :=
  let isInteger (r : Rule) := containsAny (upperName r) ["INT", "INTEGER"]
  let isFloat (r : Rule) := containsAny (upperName r) ["FLOAT", "DECIMAL"]
  isInteger r && isFloat s || isInteger s && isFloat r ||
    !(isInteger r || isInteger s || isFloat r || isFloat s) ||
    numberType r == .integer && numberType s == .integer

/-- Why two token rules may take the same text, if they may. -/
def overlap (r s : Rule) : Option String :=
  let common := (literals r).filter (literals s).contains
  if !common.isEmpty then some s!"both match {Text.sortedCommaList common}"
  else if isIdentifierText (firstText r) && isKeywordLike s then
    some s!"'{s.name}' keyword may be matched by identifier '{r.name}'"
  else if isIdentifierText (firstText s) && isKeywordLike r then
    some s!"'{r.name}' keyword may be matched by identifier '{s.name}'"
  else if isNumeric r && isNumeric s && numbersOverlap r s then some "numeric patterns may overlap"
  else none

def pairs {α : Type} : List α → List (α × α)
  | [] => []
  | a :: rest => rest.map (a, ·) ++ pairs rest

def overlappingTokens : Check where
  id := "T001"
  title := "Overlapping Tokens"
  description := "Token rules should not have overlapping patterns"
  run g config := .ok <| (pairs g.tokenRules).filterMap fun (r, s) =>
    (overlap r s).map fun reason =>
      .of "T001" g config r.range s!"Token '{r.name}' may overlap with '{s.name}': {reason}"
        "Review token order or make patterns more specific"
        "Consider reordering tokens or using more specific patterns"

/-- The alternatives of a rule as texts, with blanks between the elements. -/
def patternTexts (r : Rule) : List String :=
  r.alternatives.map fun a => String.intercalate " " (a.elements.map (·.text))

def samePatterns (r s : Rule) : Bool :=
  (patternTexts r).all (patternTexts s).contains && (patternTexts s).all (patternTexts r).contains

def takesAnything (r : Rule) : Bool :=
  r.elements.any fun e => e.text == "." || e.text == ".*" || e.text == ".+"

def isIdentifierLike (r : Rule) : Bool :=
  r.elements.any fun e => containsAny e.text ["[a-zA-Z]", "[A-Z]", "[a-z]", "Letter"]

def isWord (e : Element) : Bool :=
  e.type == .terminal && Text.allLetters (Text.strip quotes e.text.toList)

/-- A word comes up before an alternative without elements does. -/
def isSpecificKeyword (r : Rule) : Bool :=
  (r.alternatives.takeWhile fun a => !a.elements.isEmpty).any fun a => a.elements.any isWord

def shadows (earlier later : Rule) : Bool :=
  samePatterns earlier later || takesAnything earlier ||
    isIdentifierLike earlier && isSpecificKeyword later

def withEarlier {α : Type} (before : List α) : List α → List (List α × α)
  | [] => []
  | a :: rest => (before, a) :: withEarlier (before ++ [a]) rest

def unreachableToken : Check where
  id := "T002"
  title := "Unreachable Token"
  description := "Token rules should be reachable (not shadowed by earlier rules)"
  run g config := .ok <| (withEarlier [] g.tokenRules).filterMap fun (before, r) =>
    let names := (before.filter (shadows · r)).map (·.name)
    if names.isEmpty then none
    else some (.of "T002" g config r.range
      s!"Token '{r.name}' may be unreachable (shadowed by: {Text.commaList names})"
      "Reorder tokens or make patterns more specific"
      s!"Move '{r.name}' before shadowing rules or use more specific pattern")

def usedTokens (g : Grammar) : List String :=
  ((g.parserRules.flatMap Rule.elements).filter fun e =>
    e.text.toList.head?.any Text.isUpper && Text.allLettersOrNumbers e.text.toList).map (·.text)

def specialTokens : List String :=
  ["WS", "COMMENT", "LINE_COMMENT", "BLOCK_COMMENT", "NEWLINE", "WHITESPACE", "SKIP", "HIDDEN"]

def unusedToken : Check where
  id := "T003"
  title := "Unused Token"
  description := "Tokens should be used in parser rules"
  run g config :=
    if g.kind == .lexer then .ok []
    else .ok <| (g.tokenRules.filter fun r =>
      !(usedTokens g).contains r.name && !specialTokens.contains r.name).map fun r =>
        .of "T003" g config r.range s!"Token '{r.name}' is defined but never used in parser rules"
          "Remove unused token or use it in parser rules"
          s!"Either remove '{r.name}' or reference it in a parser rule"

end GrammarLint.Check
