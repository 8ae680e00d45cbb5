import GrammarLint.Text.Search

namespace GrammarLint.Text

/-- A character, or half of a surrogate pair that stands alone, by its place among the halves. -/
inductive CodePoint where
  | char (c : Char)
  | half (place : Fin 0x800)
deriving DecidableEq, Repr

namespace CodePoint

instance : Coe Char CodePoint := ⟨char⟩

/-- The number of a code point; that of a half is its code unit. -/
def value : CodePoint → Nat
  | char c => c.toNat
  | half place => 0xd800 + place

def char? : CodePoint → Option Char
  | char c => some c
  | half _ => none

end CodePoint

/-- A text in which halves of surrogate pairs may stand alone. -/
structure Loose where
  points : List CodePoint
deriving DecidableEq, Repr

namespace Loose

def ofString (s : String) : Loose := ⟨s.toList.map .char⟩

instance : Coe String Loose := ⟨ofString⟩

instance : Append Loose := ⟨fun s t => ⟨s.points ++ t.points⟩⟩

def isEmpty (t : Loose) : Bool := t.points.isEmpty

/-- The text as a string, if no half stands alone in it. -/
def string? (t : Loose) : Option String := (t.points.mapM CodePoint.char?).map String.ofList

/-- The text as a string, with a mark in place of each half that stands alone. -/
def toString (t : Loose) : String :=
  String.ofList (t.points.map fun point => point.char?.getD '\ufffd')

def contains (t part : Loose) : Bool := hasInfix part.points t.points

def join (texts : List Loose) : Loose := ⟨texts.flatMap points⟩

def joinLines (lines : List Loose) : Loose :=
  ⟨((lines.map points).intersperse [.char '\n']).flatten⟩

end Loose

end GrammarLint.Text
