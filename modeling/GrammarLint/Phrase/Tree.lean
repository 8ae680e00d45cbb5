import GrammarLint.Lexical.Token
import GrammarLint.Phrase.Form

namespace GrammarLint.Phrase

open Lexical (Token)

/-- A grammar file taken apart into phrases. A phrase has the token at which it began and the last
token before its end, which for an empty phrase stands before its start. Tokens that do not fit,
and tokens put in for missing ones, are errors. -/
inductive Tree where
  | phrase (category : Category) (start : Token) (stop : Option Token) (children : List Tree)
  | leaf (token : Token)
  | error (token : Token)

namespace Tree

mutual
def tokens : Tree → List Token
  | .phrase _ _ _ children => tokensOf children
  | .leaf token => [token]
  | .error token => [token]

def tokensOf : List Tree → List Token
  | [] => []
  | tree :: rest => tree.tokens ++ tokensOf rest
end

/-- The texts of the tokens of a tree, one behind the other. -/
def text (tree : Tree) : String := String.join (tree.tokens.map (·.text))

def category? : Tree → Option Category
  | .phrase category _ _ _ => some category
  | _ => none

def token? : Tree → Option Token
  | .phrase _ _ _ _ => none
  | .leaf token => some token
  | .error token => some token

def children : Tree → List Tree
  | .phrase _ _ _ children => children
  | _ => []

def phrases (category : Category) (tree : Tree) : List Tree :=
  tree.children.filter (·.category? == some category)

def tokensOfKind (kind : Lexical.Kind) (tree : Tree) : List Token :=
  tree.children.filterMap fun child => child.token?.filter (·.kind == kind)

end Tree

end GrammarLint.Phrase
