import GrammarLint.Lexical.Token
import GrammarLint.Text.LetterCase

namespace GrammarLint.Lexical

/-- Where the scanner is in the file, as far as it decides what a bracket opens. -/
inductive Scope where
  | outside
  | lexerRule
  | parserRule
  /-- Inside an `options`, `tokens` or `channels` block outside of rules. -/
  | prequel
  /-- Inside an `options` block of a lexer rule. -/
  | lexerOptions
  /-- Between an `@` outside of rules and its action. -/
  | namedAction
deriving DecidableEq, Repr

namespace Scope

def after (kind : Kind) : Scope → Scope
  | .outside =>
    match kind with
    | .optionsOpen | .tokensOpen | .channelsOpen => .prequel
    | .atSign => .namedAction
    | .tokenRef => .lexerRule
    | .ruleRef => .parserRule
    | _ => .outside
  | .lexerRule =>
    match kind with
    | .optionsOpen => .lexerOptions
    | .semicolon => .outside
    | _ => .lexerRule
  | .parserRule => if kind = .semicolon then .outside else .parserRule
  | .prequel => if kind = .rightBrace ∨ kind = .semicolon then .outside else .prequel
  | .lexerOptions => if kind = .rightBrace then .lexerRule else .lexerOptions
  | .namedAction => if kind = .action ∨ kind = .semicolon then .outside else .namedAction

end Scope

/-- The outcome of looking for the next piece of text: a lexical rule with the text it takes, or
the text to skip because no rule takes a beginning of what is left. -/
inductive Piece where
  | found (effect : Effect) (text rest : List Char)
  | skipped (text rest : List Char)
deriving DecidableEq, Repr

/-- A lexical rule on its way through a text. -/
structure Racer where
  rule : LexicalRule
  branches : List Branch

namespace Racer

def start (rule : LexicalRule) : Racer := ⟨rule, Branch.prune rule.shape.branches⟩

def step (c : Char) (racer : Racer) : Racer :=
  { racer with branches := racer.rule.shape.step c racer.branches }

def isAlive (racer : Racer) : Bool := !racer.branches.isEmpty

def isDone (racer : Racer) : Bool := racer.branches.any Branch.isDone

def endsHere (racer : Racer) : Bool := racer.branches.any Branch.endsHere

def effect (racer : Racer) : Effect := racer.rule.effect

end Racer

/-- The longest text that a rule has taken so far, backwards, and the text behind it. -/
structure Best where
  effect : Effect
  taken : List Char
  rest : List Char

/-- Follows all rules along the text as far as one of them is alive. `best` belongs to the first
rule that took the longest text; `taken` is the text followed so far, backwards. -/
def race (best : Option Best) (taken : List Char) (racers : List Racer) : List Char → Piece
  | [] =>
    match racers.find? Racer.endsHere with
    | some racer => .found racer.effect taken.reverse []
    | none => settle best taken []
  | c :: rest =>
    match (racers.map (Racer.step c)).filter Racer.isAlive with
    | [] => settle best (c :: taken) rest
    | alive =>
      match alive.find? Racer.isDone with
      | some racer => race (some ⟨racer.effect, c :: taken, rest⟩) (c :: taken) alive rest
      | none => race best (c :: taken) alive rest
where
  /-- The best text, or else everything followed so far is skipped. -/
  settle (best : Option Best) (taken rest : List Char) : Piece :=
    match best with
    | some b => .found b.effect b.taken.reverse b.rest
    | none => .skipped taken.reverse rest

def defaultRacers : List Racer := Vocabulary.defaultRules.map Racer.start

def argumentRacers : List Racer := Vocabulary.argumentRules.map Racer.start

def charSetRacers : List Racer := Vocabulary.charSetRules.map Racer.start

def racers : Mode → List Racer
  | .default => defaultRacers
  | .argument => argumentRacers
  | .charSet => charSetRacers

def nextPiece (mode : Mode) (text : List Char) : Piece := race none [] (racers mode) text

/-- A scanner on its way through a text. `enclosing` are the modes to return to, innermost first;
`ended` is set once a piece has reached the end of the text. -/
structure Scanner where
  rest : List Char
  position : Position
  mode : Mode
  enclosing : List Mode
  scope : Scope
  ended : Bool
deriving DecidableEq, Repr

namespace Scanner

def start (text : List Char) : Scanner :=
  { rest := text, position := .start, mode := .default, enclosing := [], scope := .outside,
    ended := false }

def enter (mode : Mode) (s : Scanner) : Scanner :=
  { s with mode := mode, enclosing := s.mode :: s.enclosing }

def leave (s : Scanner) : Scanner :=
  match s.enclosing with
  | mode :: modes => { s with mode := mode, enclosing := modes }
  | [] => s

def moveTo (text rest : List Char) (s : Scanner) : Scanner :=
  { s with rest := rest, position := s.position.advanceAll text, ended := rest.isEmpty }

/-- Whether the name in a text is a token reference or a rule reference. -/
def nameKind (text : List Char) : Kind :=
  if text.head?.any Text.isUpper then .tokenRef else .ruleRef

/-- The kind and channel of the token that a recognised piece ends, if it ends one, and the
modes behind it. `text` is the whole text of the token. -/
def apply (effect : Effect) (text : List Char) (s : Scanner) : Option (Kind × Channel) × Scanner :=
  match effect with
  | .token kind => (some (kind, .main), s)
  | .aside kind channel => (some (kind, channel), s)
  | .name => (some (nameKind text, .main), s)
  | .openBracket =>
    if s.scope = .lexerRule then (none, s.enter .charSet)
    else (some (.beginArgument, .main), s.enter .argument)
  | .openNested => (some (.argumentContent, .main), s.enter .argument)
  | .closeBracket =>
    let outer := s.leave
    (some (if outer.enclosing.isEmpty then .endArgument else .argumentContent, .main), outer)
  | .more => (none, s)
  | .close kind => (some (kind, .main), s.leave)

/-- What one call of the scanner gives: a token, the places of the errors before it, and the
scanner behind it. -/
structure Reading where
  token : Token
  errors : List Position
  scanner : Scanner

/-- Reads on until a token is complete. `begun` is the place where the pending token started and
`text` its text so far. A piece that ends no token takes some text, so the reading goes on with
less. -/
def readOn (s : Scanner) (begun : Position) (text : List Char) (errors : List Position) : Reading :=
  match nextPiece s.mode s.rest with
  | .skipped skipped rest =>
    if s.rest.isEmpty && text.isEmpty then
      ⟨.endOfFile s.position, errors, { s with ended := true }⟩
    else
      let s' := s.moveTo skipped rest
      if !s'.ended ∧ s'.rest.length < s.rest.length then
        readOn s' s'.position [] (errors ++ [begun])
      else ⟨.endOfFile s'.position, errors ++ [begun], s'⟩
  | .found effect piece rest =>
    match (s.moveTo piece rest).apply effect (text ++ piece) with
    | (some (kind, channel), s') =>
      ⟨⟨kind, String.ofList (text ++ piece), begun, channel⟩, errors,
        { s' with scope := s'.scope.after kind }⟩
    | (none, s') =>
      if s'.rest.length < s.rest.length then readOn s' begun (text ++ piece) errors
      else ⟨.endOfFile s'.position, errors, s'⟩
termination_by s.rest.length
decreasing_by
  · exact (‹_ ∧ _›).2
  · assumption

/-- The next token. Behind the end of the text it is the end of file, again and again. -/
def next (s : Scanner) : Reading :=
  if s.ended then ⟨.endOfFile s.position, [], s⟩ else s.readOn s.position [] []

end Scanner

/-- All tokens of a text, the end of file left out, and the places of the errors. -/
structure Scan where
  tokens : List Token
  errors : List Position
  /-- The place where the text ends. -/
  finish : Position

namespace Scanner

/-- Every token takes some text, so `fuel` is at most the length of what is left. -/
def scanOn (s : Scanner) : (fuel : Nat) → Scan
  | 0 => ⟨[], [], s.position⟩
  | fuel + 1 =>
    let reading := s.next
    if reading.token.kind = .endOfFile then ⟨[], reading.errors, reading.token.position⟩
    else
      let later := reading.scanner.scanOn fuel
      ⟨reading.token :: later.tokens, reading.errors ++ later.errors, later.finish⟩

end Scanner

def scan (text : List Char) : Scan := (Scanner.start text).scanOn (text.length + 1)

end GrammarLint.Lexical
