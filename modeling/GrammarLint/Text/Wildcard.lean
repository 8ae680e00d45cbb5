import GrammarLint.Text.Loose

namespace GrammarLint.Text

inductive Wildcard where
  | many
  | one
  | char (c : CodePoint)
  | among (inside : Bool) (spans : List (CodePoint × CodePoint))
deriving DecidableEq, Repr

namespace Wildcard

def takes (w : Wildcard) (c : CodePoint) : Bool :=
  match w with
  | many => false
  | one => true
  | char d => d == c
  | among inside spans =>
    spans.any (fun (low, high) =>
      decide (low.value ≤ c.value) && decide (c.value ≤ high.value)) == inside

/-- What stands between the brackets of a set, and what is behind them; nothing if the set has no
end. A closing bracket at the front, also behind an exclamation mark, belongs to the set. -/
def setBody (cs : List CodePoint) : Option (List CodePoint × List CodePoint) :=
  let (negation, rest) := match cs with
    | .char '!' :: rest => ([CodePoint.char '!'], rest)
    | rest => ([], rest)
  let (bracket, rest) := match rest with
    | .char ']' :: rest => ([CodePoint.char ']'], rest)
    | rest => ([], rest)
  let body := rest.takeWhile (· != .char ']')
  match rest.dropWhile (· != .char ']') with
  | _ :: behind => some (negation ++ bracket ++ body, behind)
  | [] => none

/-- Cuts the body of a set at the hyphens that make spans. The first character, and the two behind
such a hyphen, are no such hyphens. `wait` counts the characters that are not looked at, `chunk`
holds those before in reverse. -/
def chunksFrom (wait : Nat) (chunk : List CodePoint) : List CodePoint → List (List CodePoint)
  | [] => [chunk.reverse]
  | c :: rest =>
    if wait == 0 && c == .char '-' then chunk.reverse :: chunksFrom 2 [] rest
    else chunksFrom (wait - 1) (c :: chunk) rest

/-- A hyphen at the very end stands for itself. -/
def keepLastHyphen : List (List CodePoint) → List (List CodePoint)
  | [chunk, []] => [chunk ++ [.char '-']]
  | chunk :: rest => chunk :: keepLastHyphen rest
  | [] => []

def chunks (body : List CodePoint) : List (List CodePoint) :=
  keepLastHyphen (chunksFrom (if body.head? == some (.char '!') then 2 else 1) [] body)

/-- Drops the ends of spans that run backwards. -/
def joinBackward : List (List CodePoint) → List (List CodePoint)
  | [] => []
  | chunk :: rest =>
    match joinBackward rest with
    | [] => [chunk]
    | next :: others =>
      match chunk.getLast?, next.head? with
      | some low, some high =>
        if high.value < low.value then (chunk.dropLast ++ next.tail) :: others
        else chunk :: next :: others
      | _, _ => chunk :: next :: others

/-- A character of a set, or the hyphen of a span. -/
inductive SetItem where
  | char (c : CodePoint)
  | hyphen
deriving DecidableEq, Repr

def setItems : List (List CodePoint) → List SetItem
  | [] => []
  | [chunk] => chunk.map .char
  | chunk :: rest => chunk.map .char ++ .hyphen :: setItems rest

def spans : List SetItem → List (CodePoint × CodePoint)
  | [] => []
  | .char low :: .hyphen :: .char high :: rest => (low, high) :: spans rest
  | .char c :: rest => (c, c) :: spans rest
  | .hyphen :: rest => ('-', '-') :: spans rest

def ofSetBody (body : List CodePoint) : Wildcard :=
  match setItems (joinBackward (chunks body)) with
  | .char (.char '!') :: items => among false (spans items)
  | items => among true (spans items)

/-- Reads a pattern. Each step takes a character, so the length of the pattern is fuel enough. -/
def readFrom : (fuel : Nat) → List CodePoint → List Wildcard
  | 0, _ => []
  | _, [] => []
  | fuel + 1, c :: rest =>
    if c == .char '*' then many :: readFrom fuel (rest.dropWhile (· == .char '*'))
    else if c == .char '?' then one :: readFrom fuel rest
    else if c == .char '[' then
      match setBody rest with
      | some (body, behind) => ofSetBody body :: readFrom fuel behind
      | none => char '[' :: readFrom fuel rest
    else char c :: readFrom fuel rest

def read (pattern : List CodePoint) : List Wildcard := readFrom pattern.length pattern

def matchesAll : List Wildcard → List CodePoint → Bool
  | [], cs => cs.isEmpty
  | many :: ws, [] => matchesAll ws []
  | many :: ws, c :: cs => matchesAll ws (c :: cs) || matchesAll (many :: ws) cs
  | _ :: _, [] => false
  | w :: ws, c :: cs => w.takes c && matchesAll ws cs
termination_by ws cs => (ws.length, cs.length)

end Wildcard

def fits (pattern : Loose) (name : String) : Bool :=
  Wildcard.matchesAll (Wildcard.read pattern.points) (Loose.ofString name).points

end GrammarLint.Text
