import GrammarLint.Phrase.Rules
import GrammarLint.Phrase.Tree

namespace GrammarLint.Phrase

open Lexical (Kind)

/-- What a child of a phrase may be. -/
inductive Part where
  | token (kind : Kind)
  | phrase (category : Category)
deriving DecidableEq, Repr

namespace Part

def name : Part → String
  | .token kind => kind.name
  | .phrase category => category.name

def childrenIn (part : Part) (tree : Tree) : List Tree :=
  tree.children.filter fun child =>
    match part with
    | .token kind => child.token?.any (·.kind == kind)
    | .phrase category => child.category? == some category

end Part

namespace Form

/-- The parts of a form, each as often as it is written. -/
def parts : Form → List Part
  | .empty => []
  | .token _ kind => [.token kind]
  | .oneOf _ kinds => kinds.map .token
  | .call _ category => [.phrase category]
  | .seq f g => f.parts ++ g.parts
  | .alt f g => f.parts ++ g.parts
  | .choice _ _ f => f.parts
  | .optional _ _ f => f.parts
  | .star _ _ _ _ f => f.parts
  | .plus _ _ f => f.parts
  | .rounds _ _ _ f => f.parts

/-- How often a part can occur in a form, where two stands for any larger number. -/
def occurrences (part : Part) : Form → Nat
  | .empty => 0
  | .token _ kind => if part = .token kind then 1 else 0
  | .oneOf _ kinds => if kinds.any fun kind => part = .token kind then 1 else 0
  | .call _ category => if part = .phrase category then 1 else 0
  | .seq f g => f.occurrences part + g.occurrences part
  | .alt f g => max (f.occurrences part) (g.occurrences part)
  | .choice _ _ f => f.occurrences part
  | .optional _ _ f => f.occurrences part
  | .star _ _ _ _ f => 2 * f.occurrences part
  | .plus _ _ f => 2 * f.occurrences part
  | .rounds _ _ _ f => 2 * f.occurrences part

end Form

/-- The parts of a category, each once, and whether it can occur more than once. -/
def Category.parts (category : Category) : List (Part × Bool) :=
  category.form.parts.eraseDups.map fun part =>
    (part, decide (1 < category.form.occurrences part))

/-- A part of a phrase as found in a tree: at most one child, or any number of them. -/
inductive Found where
  | one (child : Option Tree)
  | many (children : List Tree)

/-- The parts of the category of a tree, with what is found for each. -/
def Tree.found (tree : Tree) : List (Part × Found) :=
  match tree.category? with
  | none => []
  | some category => category.parts.map fun (part, several) =>
    let children := part.childrenIn tree
    (part, if several then .many children else .one children.head?)

mutual
/-- The phrases in a tree with their depth, each before those in it. -/
def Tree.preorder (depth : Nat) : Tree → List (Nat × Tree)
  | .phrase category start stop children =>
    (depth, .phrase category start stop children) :: preorderOf (depth + 1) children
  | .leaf _ => []
  | .error _ => []

def Tree.preorderOf (depth : Nat) : List Tree → List (Nat × Tree)
  | [] => []
  | tree :: rest => tree.preorder depth ++ preorderOf depth rest
end

end GrammarLint.Phrase
