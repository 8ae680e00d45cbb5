import GrammarLint.Check.Basic

namespace GrammarLint.Check

/-- A part of a lexer rule that is slow to match, and a better way to write it. -/
structure Inefficiency where
  pattern : String
  better : String
deriving DecidableEq, Repr

def isRepeat (c : Char) : Bool := c == '+' || c == '*'

/-- Behind an opening parenthesis: the next closing one has a repeat before and behind it.
`previous` is the character before. -/
def closesRepeated (previous : Option Char) : List Char → Bool
  | [] => false
  | c :: rest =>
    if c == ')' then previous.any isRepeat && rest.head?.any isRepeat
    else closesRepeated (some c) rest

/-- A repeated group that ends in a repeat. -/
def hasNestedRepeat : List Char → Bool
  | [] => false
  | c :: rest => c == '(' && closesRepeated none rest || hasNestedRepeat rest

def firstCharClass (text : List Char) : List Char :=
  (text.take (text.idxOf ']' + 1)).drop (text.idxOf '[')

/-- How often a character is followed by its successor. -/
def successorCount : List Char → Nat
  | c :: d :: rest => (if d.toNat == c.toNat + 1 then 1 else 0) + successorCount (d :: rest)
  | _ => 0

/-- More than half of the characters between the brackets, which are more than five, are followed
by their successors. -/
def canSimplify (charClass : List Char) : Bool :=
  let cs := (charClass.drop 1).dropLast
  decide (5 < cs.length) && decide (cs.length < 2 * successorCount cs)

/-- A single character, bare or in single quotes. -/
def isSingle (part : List Char) : Bool :=
  (Text.strip ['(', ')'] part).length == 1 ||
    part.head? == some '\'' && part.getLast? == some '\'' && part.length == 3

def textInefficiencies (text : List Char) : List Inefficiency :=
  (if Text.hasInfix "(.*)*".toList text || Text.hasInfix "(.*)+".toList text then
    [⟨"catastrophic backtracking pattern", "Remove nested quantifiers or use atomic groups"⟩]
    else []) ++
  (if hasNestedRepeat text then
    [⟨"nested quantifiers can cause exponential backtracking",
      "Flatten nested quantifiers or use possessive quantifiers"⟩] else []) ++
  (if ".*".toList.isPrefixOf text then
    [⟨".* at beginning of pattern", "Move .* to the end or use more specific pattern"⟩]
    else []) ++
  (if 1 < Text.countPair '.' '*' text then
    [⟨"multiple .* in pattern", "Use single .* or more specific patterns"⟩] else []) ++
  (if text.contains '[' && text.contains ']' && decide (20 < (firstCharClass text).length) &&
      canSimplify (firstCharClass text) then
    [⟨"complex character class", "Simplify character class using ranges or complement"⟩]
    else []) ++
  (if 5 < text.count '|' && (Text.splitAt '|' text).all isSingle then
    [⟨"inefficient alternation pattern",
      "Use character class [a-h] instead of (a|b|c|d|e|f|g|h)"⟩] else [])

def inefficiencies (r : Rule) : List Inefficiency :=
  r.elements.flatMap fun e => textInefficiencies e.text.toList

def inefficientPattern : Check where
  id := "P002"
  title := "Inefficient Lexer Pattern"
  description := "Lexer patterns that may impact performance"
  run g config := .ok <| g.lexerRules.flatMap fun r => (inefficiencies r).map fun found =>
    .of "P002" g config r.range
      s!"Lexer rule '{r.name}' has inefficient pattern: {found.pattern}" "Optimize pattern"
      found.better

end GrammarLint.Check
