import GrammarLint.Console.Markup
import GrammarLint.Console.Table

namespace GrammarLint.Console

open Text (CodePoint Loose)

inductive Item where
  /-- A text with tags. -/
  | text (markup : Loose)
  | table (grid : Table)

def Item.print (width : Nat) (item : Item) : Loose :=
  let lines := match item with
    | .text markup => wrap width .fold (plain markup.points)
    | .table grid => grid.lines width
  ⟨lines.flatMap (· ++ [.char '\n'])⟩

def print (width : Nat) (items : List Item) : Loose := .join (items.map (·.print width))

end GrammarLint.Console
