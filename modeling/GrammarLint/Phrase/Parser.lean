import GrammarLint.Lexical.Scanner
import GrammarLint.Phrase.Prediction
import GrammarLint.Phrase.Tree

namespace GrammarLint.Phrase

open Lexical (Kind Token Position)

/-- How far a parser has come. While it recovers from an error it reports no further ones. -/
structure Progress where
  /-- The tokens not yet taken; the end of the file stands behind them. -/
  ahead : List Token
  finish : Token
  last : Option Token
  taken : Nat
  /-- The places of the reported errors, the latest first. -/
  errors : List Position
  recovering : Bool
  /-- The number of tokens taken, and the places, of the recoveries since the last match. -/
  recovered : Option (Nat × List Point)

namespace Progress

def start (tokens : List Token) (finish : Token) : Progress :=
  { ahead := tokens, finish := finish, last := none, taken := 0, errors := [],
    recovering := false, recovered := none }

def current (p : Progress) : Token := p.ahead.head?.getD p.finish

def second (p : Progress) : Token := p.ahead.tail.head?.getD p.finish

/-- Takes the current token. The end of the file can be taken again and again. -/
def take (p : Progress) : Progress :=
  match p.ahead with
  | [] => p
  | token :: rest => { p with ahead := rest, last := some token, taken := p.taken + 1 }

/-- What is noted after a token was found where it is expected. -/
def matched (p : Progress) : Progress := { p with recovering := false, recovered := none }

/-- Reports an error at a token, unless the parser is recovering from one. -/
def report (token : Token) (p : Progress) : Progress :=
  if p.recovering then p
  else { p with recovering := true, errors := token.position :: p.errors }

end Progress

/-- Why and where the parser gave up on a phrase. -/
structure Failure where
  token : Token
  point : Point

/-- What parsing a form gives: the parts found, and the failure that ended it, if any. -/
structure Parsed where
  parts : List Tree
  progress : Progress
  failure : Option Failure

namespace Parsed

def ok (parts : List Tree) (progress : Progress) : Parsed := ⟨parts, progress, none⟩

def failed (point : Point) (token : Token) (parts : List Tree) (progress : Progress) : Parsed :=
  ⟨parts, progress, some ⟨token, point⟩⟩

/-- Goes on with `next`, unless there was a failure. -/
def andThen (parsed : Parsed) (next : Progress → Parsed) : Parsed :=
  match parsed.failure with
  | some _ => parsed
  | none =>
    let later := next parsed.progress
    { later with parts := parsed.parts ++ later.parts }

end Parsed

/-- The tokens of a kind that may come next in a list of forms within a phrase of `category`, and,
where they may be passed, behind the calls the phrase is in. -/
def expects (category : Category) (forms : List Form) (calls : List Point) (kind : Kind) : Bool :=
  go (firstOf category forms) calls
where
  go (first : First) : List Point → Bool
    | [] => first.admits kind || first.passable && kind == .endOfFile
    | point :: calls => first.admits kind || first.passable && go point.after calls

/-- What may follow one of the calls that the parser is in, or the end of the file. -/
def resumes (calls : List Point) (kind : Kind) : Bool :=
  kind == .endOfFile || calls.any (·.after.admits kind)

/-- Drops tokens up to one that fits. -/
def skipUntil (fits : Kind → Bool) (p : Progress) : List Tree × Progress :=
  let dropped := p.ahead.takeWhile fun token => !fits token.kind
  (dropped.map .error,
    { p with
      ahead := p.ahead.drop dropped.length
      last := dropped.getLast?.or p.last
      taken := p.taken + dropped.length })

/-- The token that is put in where one of `kind` is missing. It stands at the current token, or
at the last one when the file is at its end. -/
def missing (kind : Kind) (p : Progress) : Token :=
  { kind := kind, text := "<missing " ++ kind.spelling ++ ">",
    position := match p.ahead, p.last with
      | [], some last => last.position
      | _, _ => p.current.position,
    channel := .main }

/-- Takes the token that stands in a place for one of `kinds`. If it does not fit but the token
behind it does, it is dropped; if it fits behind the missing one, that one is put in. `fill` is
what stands in the tree for a missing token. -/
def expectToken (point : Point) (kinds : List Kind) (fill : Progress → List Tree)
    (rest : List Form) (calls : List Point) (p : Progress) : Parsed :=
  if kinds.contains p.current.kind then .ok [.leaf p.current] p.matched.take
  else if kinds.contains p.second.kind then
    let dropped := (p.report p.current).take
    .ok [.error p.current, .leaf dropped.current] dropped.matched.take
  else if expects point.category rest calls p.current.kind then
    .ok (fill p) (p.report p.current)
  else .failed point p.current [] p

/-- Makes sure, in front of a decision, that the current token may come next. Otherwise it is
dropped if the token behind it fits. -/
def sync (point : Point) (forms : List Form) (calls : List Point) (p : Progress) : Parsed :=
  let first := firstOf point.category forms
  if p.recovering || first.admits p.current.kind || first.passable then .ok [] p
  else if expects point.category forms calls p.second.kind then
    .ok [.error p.current] ((p.report p.current).take).matched
  else .failed point p.current [] p

/-- Makes sure, behind a round of a loop, that the current token may come next. Otherwise tokens
are dropped up to one that may follow here or behind one of the calls. -/
def syncBack (point : Point) (forms : List Form) (calls : List Point) (p : Progress) : Parsed :=
  let first := firstOf point.category forms
  if p.recovering || first.admits p.current.kind || first.passable then .ok [] p
  else
    let (dropped, p) := skipUntil
      (fun kind => expects point.category forms calls kind || resumes calls kind)
      (p.report p.current)
    .ok dropped p

/-- The alternative that the next token belongs to. -/
def chooseByToken (category : Category) (alternatives : List First) (kind : Kind) : Option Nat :=
  (alternatives.findIdx? fun first =>
    first.admits kind || first.passable && category.beyond.admits kind).map (· + 1)

/-- Decides between alternatives, which are numbered from one. -/
def decideBetween (lookahead : Lookahead) (point : Point) (calls : List Point)
    (alternatives : List First) (p : Progress) : Verdict :=
  match lookahead with
  | .one =>
    match chooseByToken point.category alternatives p.current.kind with
    | some alternative => .take alternative
    | none => .unfit p.current
  | .full => predict point.category calls alternatives p.finish p.ahead

/-- Whether a loop or optional form is entered: by the next token, if that decides, or else by
looking ahead, which may fail. -/
def decideEntry (lookahead : Lookahead) (greedy : Bool) (point : Point) (calls : List Point)
    (inside outside : First) (p : Progress) : Except Token Bool :=
  match lookahead with
  | .one => .ok ((chooseByToken point.category [inside] p.current.kind).isSome)
  | .full =>
    match predict point.category calls (if greedy then [inside, outside] else [outside, inside])
        p.finish p.ahead with
    | .take alternative => .ok ((alternative == 1) == greedy)
    | .unfit token => .error token

/-- Recovers from a failure within a phrase: it is reported, and tokens are dropped up to one that
may follow one of the calls. A second recovery at the same place and token drops one token
first. -/
def recover (calls : List Point) (failure : Failure) (p : Progress) : List Tree × Progress :=
  let p := p.report failure.token
  let again := match p.recovered with
    | some (taken, points) => taken == p.taken && points.contains failure.point
    | none => false
  let (dropped, p) := if again then ([Tree.error p.current], p.take) else ([], p)
  let points := match p.recovered with
    | some (_, points) => points
    | none => []
  let (skipped, p) := skipUntil (resumes calls)
    { p with recovered := some (p.taken, failure.point :: points) }
  (dropped ++ skipped, p)

/-- Parses a form of `category` that is followed by `rest` in its phrase, under `calls`. The fuel
bounds how deep forms and phrases may lie in each other; without any the current token counts as
unfit. -/
def parseForm (category : Category) (rest : List Form) (calls : List Point) (p : Progress) :
    (fuel : Nat) → Form → Parsed
  | 0, _ => .failed ⟨category, 0⟩ p.current [] p
  | fuel + 1, form =>
    let point (index : Nat) : Point := ⟨category, index⟩
    let loop (back : Nat) (lookahead : Lookahead) (greedy : Bool) (f : Form) (at_ : Nat)
        (p : Progress) : Parsed :=
      let again := Form.rounds back lookahead greedy f
      match decideEntry lookahead greedy (point at_) calls (firstOf category (f :: again :: rest))
          (firstOf category rest) p with
      | .error token => .failed (point at_) token [] p
      | .ok false => .ok [] p
      | .ok true =>
        (parseForm category (again :: rest) calls p fuel f).andThen fun p =>
          parseForm category rest calls p fuel again
    match form with
    | .empty => .ok [] p
    | .token index kind =>
      expectToken (point index) [kind] (fun p => [.error (missing kind p)]) rest calls p
    | .oneOf index kinds => expectToken (point index) kinds (fun _ => []) rest calls p
    | .call index callee =>
      let inner := parseForm callee [] (point index :: calls) p fuel callee.form
      let (skipped, after) := match inner.failure with
        | none => ([], inner.progress)
        | some failure => recover (point index :: calls) failure inner.progress
      .ok [.phrase callee p.current after.last (inner.parts ++ skipped)] after
    | .seq f g =>
      (parseForm category (g :: rest) calls p fuel f).andThen fun p =>
        parseForm category rest calls p fuel g
    | .alt f _ => parseForm category rest calls p fuel f
    | .choice index lookahead alternatives =>
      (sync (point index) (form :: rest) calls p).andThen fun p =>
        match decideBetween lookahead (point index) calls
            (alternatives.alternatives.map fun f => firstOf category (f :: rest)) p with
        | .unfit token => .failed (point index) token [] p
        | .take alternative =>
          match alternatives.alternatives[alternative - 1]? with
          | some f => parseForm category rest calls p fuel f
          | none => .ok [] p
    | .optional index lookahead f =>
      (sync (point index) (form :: rest) calls p).andThen fun p =>
        match decideEntry lookahead true (point index) calls (firstOf category (f :: rest))
            (firstOf category rest) p with
        | .error token => .failed (point index) token [] p
        | .ok false => .ok [] p
        | .ok true => parseForm category rest calls p fuel f
    | .star index back lookahead greedy f =>
      (sync (point index) (form :: rest) calls p).andThen (loop back lookahead greedy f index)
    | .rounds back lookahead greedy f =>
      (syncBack (point back) (form :: rest) calls p).andThen (loop back lookahead greedy f back)
    | .plus index back f =>
      (sync (point index) (form :: rest) calls p).andThen fun p =>
        (parseForm category (.rounds back .one true f :: rest) calls p fuel f).andThen fun p =>
          parseForm category rest calls p fuel (.rounds back .one true f)

/-- A parse: the tree and the places of the reported errors, in order. -/
structure Parse where
  tree : Tree
  errors : List Position

/-- Deep enough for the phrases and forms that lie in each other between two tokens. -/
def depthPerToken : Nat := 4096

/-- Parses a phrase of a category from the tokens of the main channel; what is behind it is
ignored. -/
def parseTokens (category : Category) (tokens : List Token) (finish : Token) : Parse :=
  let fuel := (tokens.length + 1) * depthPerToken
  let inner := parseForm category [] [] (.start tokens finish) fuel category.form
  let (skipped, after) := match inner.failure with
    | none => ([], inner.progress)
    | some failure => recover [] failure inner.progress
  ⟨.phrase category (Progress.start tokens finish).current after.last (inner.parts ++ skipped),
    after.errors.reverse⟩

def parse (category : Category) (text : List Char) : Parse :=
  let scan := Lexical.scan text
  parseTokens category (scan.tokens.filter (·.channel == .main)) (.endOfFile scan.finish)

end GrammarLint.Phrase
