namespace GrammarLint.Text

/-- The code point lies in one of several spans one behind the other, each given by how many code points
lie in front of it, from `start` or from the end of the span before, and by how many it has. A zero
between the two numbers says that it has every other code point only. -/
def Span.spreadContains (code start : Nat) : List Nat → Bool
  | gap :: 0 :: count :: rest =>
    if code < start + gap then false
    else if code < start + gap + 2 * count - 1 then (code - start - gap) % 2 == 0
    else spreadContains code (start + gap + 2 * count - 1) rest
  | gap :: count :: rest =>
    if code < start + gap then false
    else if code < start + gap + count then true
    else spreadContains code (start + gap + count) rest
  | _ => false

/-- A character class given by a table of spans of code points. -/
def Span.anyContains (table : List Nat) (c : Char) : Bool := spreadContains c.toNat 0 table

end GrammarLint.Text
