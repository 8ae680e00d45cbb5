import GrammarLint.Text.Loose

namespace GrammarLint.Text

/-- White space in the sense of Unicode, and the four separators among the control characters. -/
def isSpace (c : CodePoint) : Bool :=
  let n := c.value
  (decide (9 ≤ n) && decide (n ≤ 13)) || (decide (28 ≤ n) && decide (n ≤ 32)) ||
    (decide (0x2000 ≤ n) && decide (n ≤ 0x200a)) ||
    [0x85, 0xa0, 0x1680, 0x2028, 0x2029, 0x202f, 0x205f, 0x3000].contains n

def stripRight (cs : List CodePoint) : List CodePoint := (cs.reverse.dropWhile isSpace).reverse

end GrammarLint.Text
