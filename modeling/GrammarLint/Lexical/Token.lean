import GrammarLint.Lexical.Vocabulary

namespace GrammarLint.Lexical

/-- A place in a text: lines count from one, columns from zero. -/
structure Position where
  line : Nat
  column : Nat
deriving DecidableEq, Repr

namespace Position

def start : Position := ⟨1, 0⟩

/-- The place behind `c`. Only a line feed starts a new line. -/
def advance (position : Position) (c : Char) : Position :=
  if c == '\n' then ⟨position.line + 1, 0⟩ else ⟨position.line, position.column + 1⟩

def advanceAll (position : Position) (text : List Char) : Position := text.foldl advance position

end Position

structure Token where
  kind : Kind
  text : String
  position : Position
  channel : Channel
deriving DecidableEq, Repr

def Token.endOfFile (position : Position) : Token :=
  ⟨.endOfFile, "<EOF>", position, .main⟩

end GrammarLint.Lexical
