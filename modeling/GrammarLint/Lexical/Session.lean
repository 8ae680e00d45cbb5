import GrammarLint.Lexical.Scanner

namespace GrammarLint.Lexical.Scanner

/-- What can be asked of a scanner: the next token, or to start again. -/
inductive Request where
  | next
  | reset
deriving DecidableEq, Repr

/-- What a request gives: a token unless the scanner only starts again, the places of the errors
before the token, and the scanner behind it. -/
structure Answer where
  token : Option Token
  errors : List Position
  scanner : Scanner
deriving DecidableEq, Repr

/-- Back at the start of the content, outside of all modes and rules. -/
def reset (content : List Char) (s : Scanner) : Scanner :=
  { s with
    rest := content
    position := .start
    mode := .default
    enclosing := []
    scope := .outside
    ended := false }

def answer (content : List Char) (s : Scanner) : Request → Answer
  | .next =>
    let reading := s.next
    ⟨some reading.token, reading.errors, reading.scanner⟩
  | .reset => ⟨none, [], s.reset content⟩

def answers (content : List Char) (s : Scanner) : List Request → List Answer
  | [] => []
  | request :: later =>
    let first := s.answer content request
    first :: answers content first.scanner later

end GrammarLint.Lexical.Scanner
