import GrammarLint.Text.Loose
import GrammarLint.Text.Printable

namespace GrammarLint.Text

def hexDigits (width n : Nat) : List Char :=
  let digits := Nat.toDigits 16 n
  List.replicate (width - digits.length) '0' ++ digits

/-- How a character stands between quotes of the kind `mark`. -/
def quotedChar (mark c : Char) : List Char :=
  if c == mark || c == '\\' then ['\\', c]
  else if c == '\n' then ['\\', 'n']
  else if c == '\r' then ['\\', 'r']
  else if c == '\t' then ['\\', 't']
  else if isPrintable c then [c]
  else if c.toNat < 0x100 then '\\' :: 'x' :: hexDigits 2 c.toNat
  else if c.toNat < 0x10000 then '\\' :: 'u' :: hexDigits 4 c.toNat
  else '\\' :: 'U' :: hexDigits 8 c.toNat

/-- A half that stands alone is escaped by its code unit. -/
def quotedPoint (mark : Char) : CodePoint → List Char
  | .char c => quotedChar mark c
  | .half place => '\\' :: 'u' :: hexDigits 4 (CodePoint.half place).value

/-- A text in single quotes, or in double quotes if it holds single ones only. What cannot be
printed is escaped. -/
def quoted (text : Loose) : String :=
  let points := text.points
  let mark := if points.contains '\'' && !points.contains '"' then '"' else '\''
  String.ofList (mark :: (points.flatMap (quotedPoint mark) ++ [mark]))

end GrammarLint.Text
