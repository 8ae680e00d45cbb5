import GrammarLint.Check.Tokens

namespace GrammarLint.Check

def startAlike (a b : Alternative) : Bool :=
  match a.firstText?, b.firstText? with
  | some s, some t => s == t
  | _, _ => false

/-- All pairs of an alternative and a later one, with their places from zero. -/
def alternativePairs (r : Rule) : List ((Alternative × Nat) × (Alternative × Nat)) :=
  pairs r.alternatives.zipIdx

/-- What may be ambiguous about a pair of alternatives, in words. -/
def pairAmbiguities (a : Alternative × Nat) (b : Alternative × Nat) : List String :=
  match a.1.firstText?, b.1.firstText? with
  | some s, some t =>
    (if s == t then
      [s!"alternatives {a.2 + 1} and {b.2 + 1} start with same token '{s}'"] else []) ++
    (if s.toList.contains '?' || t.toList.contains '?' then
      [s!"alternatives {a.2 + 1} and {b.2 + 1} have optional elements that may cause ambiguity"]
      else [])
  | _, _ => []

def ambiguities (r : Rule) : List ((Nat × Nat) × String) :=
  (alternativePairs r).flatMap fun (a, b) => (pairAmbiguities a b).map (((a.2, b.2)), ·)

/-- An alternative starts with a reference to the rule itself. -/
def isLeftRecursive (r : Rule) : Bool := r.alternatives.any (·.firstText? == some r.name)

def ambiguity : Check where
  id := "E002"
  title := "Potential Ambiguity"
  description := "Grammar rules may have ambiguous alternatives"
  run g config := .ok <|
    (g.parserRules.flatMap fun r => (ambiguities r).map fun (_, reason) =>
      .of "E002" g config r.range
        s!"Rule '{r.name}' has potentially ambiguous alternatives: {reason}" "Resolve ambiguity"
        "Use predicates, reorder alternatives, or refactor the rule") ++
    (g.parserRules.filter isLeftRecursive).map fun r =>
      .of "E002" g config r.range
        s!"Rule '{r.name}' has direct left recursion which may cause ambiguity"
        "Eliminate left recursion"
        "Refactor to remove left recursion or ensure ANTLR4 handles it correctly"

/-- What makes a rule slow, and how it could be mended. -/
structure Slowness where
  mend : String
  reason : String
deriving DecidableEq, Repr

/-- An optional group whose inside is what the other alternative starts with. -/
def optionalMeets (group other : String) : Bool :=
  let cs := group.toList
  cs.contains '?' && (cs.contains '(' || cs.contains ')') &&
    Text.strip quotes other.toList == Text.strip quotes (Text.strip ['(', ')', '?'] cs)

def optionalConflict (a b : Alternative) : Bool :=
  match a.firstText?, b.firstText? with
  | some s, some t => optionalMeets s t || optionalMeets t s
  | _, _ => false

/-- What the first conflicting later alternative does to `a`. -/
def conflictWithLater (a : Alternative) : List Alternative → Option Slowness
  | [] => none
  | b :: rest =>
    if startAlike a b then
      some ⟨"Factor out common prefix or reorder alternatives",
        "alternatives with common prefix require backtracking"⟩
    else if optionalConflict a b then
      some ⟨"Optional prefix conflicts with another alternative",
        "optional prefix may cause backtracking"⟩
    else conflictWithLater a rest

/-- The conflicts of each alternative with the later ones, at most one for each. -/
def conflicts : List Alternative → List Slowness
  | [] => []
  | a :: rest => (conflictWithLater a rest).toList ++ conflicts rest

def starsInARow : List Element → Bool
  | e :: f :: rest =>
    e.text.toList.contains '*' && f.text.toList.contains '*' || starsInARow (f :: rest)
  | _ => false

/-- A plus or star stands in the text, the label or the type of an element. -/
def mentionsRepetition (e : Element) : Bool :=
  [e.text, e.label.getD "", e.type.name].any fun s =>
    s.toList.contains '+' || s.toList.contains '*'

def repetitions (alternatives : List Alternative) (a : Alternative) : List Slowness :=
  (if starsInARow a.elements then
    [⟨"Use (x | y)* instead of (x)* (y)*", "consecutive optional repetitions"⟩] else []) ++
  (if a.elements.any mentionsRepetition && alternatives.any fun b => a != b && startAlike a b then
    [⟨"Reorder alternatives or use predicates", "overlapping alternatives with repetition"⟩]
    else [])

/-- How deep groups lie in each other within elements that hold a question mark, counted where a
group closes. `current` is the depth so far. -/
def optionalDepth (current deepest : Nat) : List Element → Nat
  | [] => deepest
  | e :: rest =>
    let counts := e.text.toList.contains '?'
    let (current, deepest) := e.text.toList.foldl (fun (current, deepest) c =>
      if c == '(' then (current + 1, deepest)
      else if c == ')' then (current - 1, if counts then max deepest current else deepest)
      else (current, deepest)) (current, deepest)
    optionalDepth current deepest rest

def nestedOptionals (a : Alternative) : Nat := optionalDepth 0 0 a.elements

def deepOptionals (a : Alternative) : List Slowness :=
  let depth := nestedOptionals a
  if 2 < depth then
    [⟨"Flatten nested optional groups", s!"deeply nested optional groups (level {depth})"⟩]
  else []

def backtrackings (r : Rule) : List Slowness :=
  conflicts r.alternatives ++ r.alternatives.flatMap (repetitions r.alternatives) ++
    r.alternatives.flatMap deepOptionals

def backtracking : Check where
  id := "P001"
  title := "Excessive Backtracking"
  description := "Grammar patterns that may cause performance issues due to backtracking"
  run g config := .ok <| g.rules.flatMap fun r => (backtrackings r).map fun slow =>
    .of "P001" g config r.range s!"Rule '{r.name}' may cause excessive backtracking: {slow.reason}"
      "Optimize to reduce backtracking" slow.mend

end GrammarLint.Check
