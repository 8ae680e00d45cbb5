import GrammarLint.Json.Decimal
import GrammarLint.Json.Value

namespace GrammarLint.Json

open Text (CodePoint Loose)

def hexDigit (n : Nat) : Char :=
  if n < 10 then Char.ofNat ('0'.toNat + n) else Char.ofNat ('a'.toNat + (n - 10))

def hex4 (n : Nat) : List Char :=
  [hexDigit (n / 4096 % 16), hexDigit (n / 256 % 16), hexDigit (n / 16 % 16), hexDigit (n % 16)]

def unicodeEscape (n : Nat) : List Char := '\\' :: 'u' :: hex4 n

/-- How a character stands in a quoted text. Only printable ASCII characters stand for
themselves; a character above the first plane is written as a pair of surrogates. -/
def escapeChar (c : Char) : List Char :=
  if c == '"' then ['\\', '"']
  else if c == '\\' then ['\\', '\\']
  else if c == '\n' then ['\\', 'n']
  else if c == '\r' then ['\\', 'r']
  else if c == '\t' then ['\\', 't']
  else if c == '\x0c' then ['\\', 'f']
  else if c == '\x08' then ['\\', 'b']
  else if ' ' ≤ c ∧ c ≤ '~' then [c]
  else if c.toNat < 0x10000 then unicodeEscape c.toNat
  else
    let n := c.toNat - 0x10000
    unicodeEscape (0xd800 + n / 1024) ++ unicodeEscape (0xdc00 + n % 1024)

/-- A half that stands alone is escaped by its code unit. -/
def escapePoint : CodePoint → List Char
  | .char c => escapeChar c
  | .half place => unicodeEscape (CodePoint.half place).value

def quote (s : Loose) : List Char := '"' :: (s.points.flatMap escapePoint ++ ['"'])

def constantWords : NotFinite := ⟨"Infinity", "NaN"⟩

namespace Value

def newLine (depth : Nat) : List Char := '\n' :: List.replicate (2 * depth) ' '

mutual
/-- A value over several lines, each level set in by two blanks. `depth` is the level of the line
on which the value starts. -/
def indented (depth : Nat) : Value → List Char
  | null => "null".toList
  | bool true => "true".toList
  | bool false => "false".toList
  | int n => (toString n).toList
  | float x => (floatText constantWords x).toList
  | str s => quote s
  | arr [] => ['[', ']']
  | arr (item :: items) =>
    '[' :: (newLine (depth + 1) ++ item.indented (depth + 1) ++ indentedItems depth items)
  | obj [] => ['{', '}']
  | obj ((key, value) :: fields) =>
    '{' :: (newLine (depth + 1) ++ quote key ++ [':', ' '] ++ value.indented (depth + 1) ++
      indentedFields depth fields)

def indentedItems (depth : Nat) : List Value → List Char
  | [] => newLine depth ++ [']']
  | item :: items =>
    ',' :: (newLine (depth + 1) ++ item.indented (depth + 1) ++ indentedItems depth items)

def indentedFields (depth : Nat) : List (Loose × Value) → List Char
  | [] => newLine depth ++ ['}']
  | (key, value) :: fields =>
    ',' :: (newLine (depth + 1) ++ quote key ++ [':', ' '] ++ value.indented (depth + 1) ++
      indentedFields depth fields)
end

def render (value : Value) : String := String.ofList (value.indented 0)

end Value

end GrammarLint.Json
