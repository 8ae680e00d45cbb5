import GrammarLint.Lexical.Token
import GrammarLint.Phrase.First

namespace GrammarLint.Phrase

open Lexical (Kind Token)

/-- Where a line of prediction stands: before a token at a place, or behind the outermost
phrase. -/
inductive Stand where
  | before (point : Point) (kinds : List Kind)
  | finished
deriving DecidableEq, Repr

/-- A line of prediction: where it stands, the alternative it started with, the calls it is in,
innermost first, and whether it has left the phrase of the decision. -/
structure Line where
  stand : Stand
  alternative : Nat
  calls : List Point
  outside : Bool
deriving DecidableEq, Repr

/-- The context in which a decision is predicted. Without context a phrase may be followed by
whatever follows its category anywhere; with context it returns to its actual callers. -/
inductive Scheme where
  | anyCaller
  | actualCallers
deriving DecidableEq, Repr

/-- The lines that go on from `first` in a phrase of `category` under the calls `calls`. -/
def linesFrom (scheme : Scheme) (alternative : Nat) (outside : Bool) (category : Category)
    (first : First) (calls : List Point) : List Line :=
  let here := first.reads.map fun read =>
    ⟨.before read.point read.kinds, alternative, read.calls ++ calls, outside⟩
  if first.passable then here ++ leave category calls else here
where
  /-- The lines that go on behind the end of the phrase. -/
  leave (category : Category) : List Point → List Line
    | [] =>
      match scheme with
      | .actualCallers => [⟨.finished, alternative, [], outside⟩]
      | .anyCaller =>
        let beyond := category.beyond
        (beyond.reads.map fun read =>
          ⟨.before read.point read.kinds, alternative, read.calls, true⟩) ++
          if beyond.passable then [⟨.finished, alternative, [], outside⟩] else []
    | point :: calls =>
      let here := point.after.reads.map fun read =>
        ⟨.before read.point read.kinds, alternative, read.calls ++ calls, outside⟩
      if point.after.passable then here ++ leave point.category calls else here

/-- Lines of the same alternative that stand at the same place, with all their calls. -/
structure Bundle where
  stand : Stand
  alternative : Nat
  histories : List (List Point)
  outside : Bool
deriving DecidableEq, Repr

namespace Bundle

/-- Without context, calls that are known only so far stand for all that continue them. -/
def addHistory (scheme : Scheme) (calls : List Point) (histories : List (List Point)) :
    List (List Point) :=
  match scheme with
  | .actualCallers => if histories.contains calls then histories else histories ++ [calls]
  | .anyCaller =>
    if histories.any (·.isPrefixOf calls) then histories
    else histories.filter (fun other => !calls.isPrefixOf other) ++ [calls]

/-- Puts a line into the bundle it belongs to, or into a new one at the end. -/
def add (scheme : Scheme) (line : Line) : List Bundle → List Bundle
  | [] => [⟨line.stand, line.alternative, [line.calls], line.outside⟩]
  | b :: rest =>
    if b.stand = line.stand ∧ b.alternative = line.alternative then
      { b with histories := addHistory scheme line.calls b.histories,
               outside := b.outside || line.outside } :: rest
    else b :: add scheme line rest

def collect (scheme : Scheme) (lines : List Line) : List Bundle :=
  lines.foldl (fun bundles line => add scheme line bundles) []

def lines (b : Bundle) : List Line :=
  b.histories.map fun calls => ⟨b.stand, b.alternative, calls, b.outside⟩

def isFinished (b : Bundle) : Bool := b.stand == .finished

def sameHistories (b c : Bundle) : Bool :=
  b.histories.all c.histories.contains && c.histories.all b.histories.contains

/-- Both stand at the same place under the same calls, so they agree on all that follows. -/
def agree (b c : Bundle) : Bool := b.stand == c.stand && b.sameHistories c

def admits (kind : Kind) (b : Bundle) : Bool :=
  match b.stand with
  | .finished => false
  | .before _ kinds => kinds.contains kind

/-- The lines that go on when a token of `kind` is read. -/
def read (scheme : Scheme) (kind : Kind) (b : Bundle) : List Line :=
  match b.stand with
  | .finished => []
  | .before point kinds =>
    if kinds.contains kind then
      b.histories.flatMap (linesFrom scheme b.alternative b.outside point.category point.after)
    else []

end Bundle

/-- The only alternative of some bundles. -/
def onlyAlternative : List Bundle → Option Nat
  | [] => none
  | b :: rest => if rest.all (·.alternative == b.alternative) then some b.alternative else none

/-- The bundles behind a token. Lines that are finished stay where no other line finishes; behind
the end of the file only finished lines remain. -/
def advance (scheme : Scheme) (kind : Kind) (bundles : List Bundle) : List Bundle :=
  let reached := Bundle.collect scheme (bundles.flatMap (Bundle.read scheme kind))
  let reached := if kind = .endOfFile then reached.filter Bundle.isFinished else reached
  let waiting := if scheme = .actualCallers ∨ kind = .endOfFile then
    bundles.filter Bundle.isFinished else []
  if scheme = .anyCaller || !reached.any Bundle.isFinished then
    (waiting.flatMap Bundle.lines).foldl (fun all line => Bundle.add scheme line all) reached
  else reached

/-- Without context, looking further ahead cannot help: all lines are finished, or some
alternatives agree and no place belongs to a single alternative. -/
def isStuck (bundles : List Bundle) : Bool :=
  bundles.all Bundle.isFinished ||
    (bundles.any fun b => bundles.any fun c => b.alternative != c.alternative && b.agree c) &&
      bundles.all fun b => bundles.any fun c => b.stand == c.stand && b.alternative != c.alternative

/-- The least alternative that agrees with a bundle. -/
def leastAgreeing (bundles : List Bundle) (b : Bundle) : Nat :=
  bundles.foldl (fun least c => if b.agree c then min least c.alternative else least) b.alternative

/-- With context, the alternative that all alternatives can be replaced by. -/
def resolved (bundles : List Bundle) : Option Nat :=
  match bundles with
  | [] => none
  | b :: rest =>
    let least := leastAgreeing bundles b
    if rest.all fun c => leastAgreeing bundles c == least then some least else none

/-- Where no line can go on, the least alternative that has left the phrase of the decision. -/
def finishedAlternative (bundles : List Bundle) : Option Nat :=
  ((bundles.filter fun b => b.outside || b.isFinished && b.histories.contains []).map
    (·.alternative)).min?

/-- The outcome of a prediction: an alternative, or the token that fits none. -/
inductive Verdict where
  | take (alternative : Nat)
  | unfit (token : Token)
deriving DecidableEq, Repr

def Verdict.ofFailure (bundles : List Bundle) (token : Token) : Verdict :=
  match finishedAlternative bundles with
  | some alternative => .take alternative
  | none => .unfit token

/-- Predicts with the actual callers. The last token is the end of the file. -/
def predictInContext (finish : Token) (bundles : List Bundle) : List Token → Verdict
  | [] =>
    match advance .actualCallers finish.kind bundles with
    | [] => .ofFailure bundles finish
    | reached => ((resolved reached).map Verdict.take).getD (.unfit finish)
  | token :: ahead =>
    match advance .actualCallers token.kind bundles with
    | [] => .ofFailure bundles token
    | reached =>
      match resolved reached with
      | some alternative => .take alternative
      | none => predictInContext finish reached ahead

/-- Predicts without context, as far as that goes. -/
def predictAnywhere (finish : Token) (bundles : List Bundle) : List Token → Option Verdict
  | [] =>
    match advance .anyCaller finish.kind bundles with
    | [] => some (.ofFailure bundles finish)
    | reached => (onlyAlternative reached).map .take
  | token :: ahead =>
    match onlyAlternative (bundles.filter (Bundle.admits token.kind)) with
    | some alternative => some (.take alternative)
    | none =>
      match advance .anyCaller token.kind bundles with
      | [] => some (.ofFailure bundles token)
      | reached => if isStuck reached then none else predictAnywhere finish reached ahead

/-- The bundles at a decision in a phrase of `category`, whose alternatives are numbered from
one. -/
def openings (scheme : Scheme) (category : Category) (calls : List Point)
    (alternatives : List First) : List Bundle :=
  Bundle.collect scheme (alternatives.zipIdx.flatMap fun (first, i) =>
    linesFrom scheme (i + 1) false category first calls)

/-- The alternative to take at a decision, by looking ahead as far as needed. -/
def predict (category : Category) (calls : List Point) (alternatives : List First)
    (finish : Token) (ahead : List Token) : Verdict :=
  match predictAnywhere finish (openings .anyCaller category [] alternatives) ahead with
  | some verdict => verdict
  | none =>
    predictInContext finish (openings .actualCallers category calls alternatives) ahead

end GrammarLint.Phrase
