import GrammarLint.Text.CharKind
import GrammarLint.Text.LetterCase

namespace GrammarLint

/-- A stretch of a file from its first to its last token. Lines and columns count from one. -/
structure Range where
  startLine : Int
  startColumn : Int
  endLine : Int
  endColumn : Int
deriving DecidableEq, Repr

/-- What an element of an alternative is, as far as its text tells. -/
inductive ElementType where
  | terminal
  | charSet
  | tokenRef
  | ruleRef
  | suffix
  | unknown
  | other (name : String)
deriving DecidableEq, Repr

namespace ElementType

def name : ElementType → String
  | .terminal => "terminal"
  | .charSet => "char_set"
  | .tokenRef => "token_ref"
  | .ruleRef => "rule_ref"
  | .suffix => "suffix"
  | .unknown => "unknown"
  | .other name => name

def ofName (name : String) : ElementType :=
  ([terminal, charSet, tokenRef, ruleRef, suffix, unknown].find? (·.name == name)).getD
    (.other name)

/-- The type of an element with the given text. A reference with a suffix or an underscore is
none of these. -/
def ofText (text : List Char) : ElementType :=
  match text with
  | [] => .unknown
  | c :: _ =>
    if c == '\'' || c == '"' then .terminal
    else if c == '[' && text.getLast? == some ']' then .charSet
    else if Text.isUpper c && Text.allLettersOrNumbers text then .tokenRef
    else if Text.isLower c && Text.allLettersOrNumbers text then .ruleRef
    else if text == ['?'] || text == ['*'] || text == ['+'] then .suffix
    else .unknown

end ElementType

structure Element where
  text : String
  range : Option Range
  label : Option String
  type : ElementType
deriving DecidableEq, Repr

namespace Element

def isQuoted (e : Element) : Bool :=
  match e.text.toList with
  | c :: _ => c == '\'' || c == '"'
  | [] => false

def isLiteral (e : Element) : Bool := e.type == .terminal && e.isQuoted

end Element

structure Alternative where
  elements : List Element
  label : Option String
  range : Option Range
deriving DecidableEq, Repr

namespace Alternative

def label? (a : Alternative) : Option String := a.label.filter (!·.isEmpty)

def firstText? (a : Alternative) : Option String := a.elements.head?.map (·.text)

end Alternative

/-- A rule of a grammar. `mode` is the lexer mode it belongs to, if not the default one. -/
structure Rule where
  name : String
  isLexer : Bool
  isFragment : Bool
  mode : Option String
  range : Option Range
  alternatives : List Alternative
deriving DecidableEq, Repr

namespace Rule

/-- What tells rules apart: the name and the two flags. -/
def key (r : Rule) : String × Bool × Bool := (r.name, r.isLexer, r.isFragment)

def same (r s : Rule) : Bool := r.key == s.key

/-- The first rule of each key. -/
def distinct : List Rule → List Rule
  | [] => []
  | r :: rest => r :: (distinct rest).filter fun s => !r.same s

def elements (r : Rule) : List Element := r.alternatives.flatMap (·.elements)

end Rule

inductive GrammarKind where
  | combined
  | lexer
  | parser
deriving DecidableEq, Repr

namespace GrammarKind

def name : GrammarKind → String
  | .combined => "combined"
  | .lexer => "lexer"
  | .parser => "parser"

def ofName? (name : String) : Option GrammarKind :=
  [combined, lexer, parser].find? (·.name == name)

end GrammarKind

/-- A grammar as the checks see it: `range` is that of the declaration. -/
structure Grammar where
  file : String
  kind : GrammarKind
  name : String
  range : Option Range
  rules : List Rule
deriving DecidableEq, Repr

namespace Grammar

def parserRules (g : Grammar) : List Rule := g.rules.filter (!·.isLexer)

def lexerRules (g : Grammar) : List Rule := g.rules.filter (·.isLexer)

/-- The lexer rules that make tokens. -/
def tokenRules (g : Grammar) : List Rule := g.rules.filter fun r => r.isLexer && !r.isFragment

end Grammar

end GrammarLint
