import GrammarLint.Proofs.Lexemes

open List

namespace GrammarLint.Lexical

open Vocabulary

/-- A token without its place. -/
structure Lexeme where
  kind : Kind
  text : List Char
deriving DecidableEq, Repr

def Token.lexeme (token : Token) : Lexeme := ⟨token.kind, token.text.toList⟩

/-- The scanner stands between two tokens in front of a text, in no block and no character set. -/
structure Scanner.Ready (scope : Scope) (text : List Char) (s : Scanner) : Prop where
  mode : s.mode = .default
  scope : s.scope = scope
  rest : s.rest = text
  ended : s.ended = text.isEmpty

/-- In front of the text the next token is this one, without an error before it, and the scanner is
ready again for what is left. -/
def Yields (scope : Scope) (text : List Char) (kind : Kind) (piece : List Char) (channel : Channel)
    (rest : List Char) : Prop :=
  ∀ s : Scanner, s.Ready scope text → ∃ s' : Scanner,
    s.next = ⟨⟨kind, String.ofList piece, s.position, channel⟩, [], s'⟩ ∧
      s'.Ready (scope.after kind) rest

variable {scope : Scope} {rest body : List Char} {s : Scanner} {kind : Kind} {w : Word} {words : List Word}

/-- A piece that is a token by itself is the next token. -/
theorem yields_piece {text piece : List Char} {effect : Effect} {channel : Channel}
    (some_ : text ≠ []) (found : nextPiece .default text = .found effect piece rest)
    (applied : ∀ s : Scanner, s.apply effect piece = (some (kind, channel), s)) :
    Yields scope text kind piece channel rest := by
  intro s ready
  have ended : s.ended = false := by simpa [ready.ended] using some_
  refine ⟨{ s.moveTo piece rest with scope := scope.after kind }, ?_, ready.mode, rfl, rfl, rfl⟩
  rw [Scanner.next, ended, Scanner.readOn, ready.mode, ready.rest, found]
  simp only [nil_append, applied]
  rw [← ready.scope]
  rfl

theorem yields_word {text : List Char} (isWord : IsWord text) (apart : Apart rest) (scope : Scope) :
    Yields scope (text ++ rest) (wordKind text) text .main rest := by
  refine yields_piece ?_ (nextPiece_word isWord apart) (apply_word text)
  obtain ⟨c, later, rfl, -, -⟩ := isWord
  simp

theorem yields_mark {entry : String × Kind} (mem : entry ∈ marks) (apart : Apart rest) (scope : Scope) :
    Yields scope (entry.1.toList ++ rest) entry.2 entry.1.toList .main rest := by
  have some_ : ∀ entry ∈ marks, entry.1.toList ≠ [] := by decide
  exact yields_piece (by simp [some_ entry mem]) (nextPiece_mark mem apart) fun _ => rfl

theorem yields_literal (plain : ∀ c ∈ body, c ∉ literalStops) (rest : List Char) (scope : Scope) :
    Yields scope ('\'' :: body ++ ['\''] ++ rest) .stringLiteral ('\'' :: body ++ ['\'']) .main rest :=
  yields_piece (by simp) (nextPiece_literal plain rest) fun _ => rfl

theorem yields_blanks {gap : List Char} (some_ : gap ≠ []) (blank : ∀ c ∈ gap, c ∈ blankChars)
    (next : ∀ c, rest.head? = some c → c ∉ blankChars) (scope : Scope) :
    Yields scope (gap ++ rest) .whitespace gap .blank rest :=
  yields_piece (by simp [some_]) (nextPiece_blanks some_ blank next) fun _ => rfl

/-- The scanner is inside a character set, with this text left up to its bracket. -/
structure Scanner.InSet (scope : Scope) (body rest : List Char) (s : Scanner) : Prop where
  mode : s.mode = .charSet
  enclosing : ∃ modes, s.enclosing = .default :: modes
  scope : s.scope = scope
  rest : s.rest = body ++ ']' :: rest

theorem Scanner.InSet.close (inSet : s.InSet scope [] rest) (begun : Position) (text : List Char) :
    ∃ s', s.readOn begun text [] =
        ⟨⟨.lexerCharSet, String.ofList (text ++ [']']), begun, .main⟩, [], s'⟩ ∧
      s'.Ready (scope.after .lexerCharSet) rest := by
  obtain ⟨mode, ⟨modes, enclosing⟩, rfl, left⟩ := inSet
  have found := nextPiece_setEnd rest
  rw [Scanner.readOn, mode, left, nil_append, ← singleton_append, found]
  simp only [Scanner.apply, Scanner.leave, Scanner.moveTo, enclosing]
  exact ⟨_, rfl, rfl, rfl, rfl, rfl⟩

theorem Scanner.InSet.readOn (inSet : s.InSet scope body rest) (plain : ∀ c ∈ body, c ∉ setStops)
    (begun : Position) (text : List Char) :
    ∃ s', s.readOn begun text [] =
        ⟨⟨.lexerCharSet, String.ofList (text ++ body ++ [']']), begun, .main⟩, [], s'⟩ ∧
      s'.Ready (scope.after .lexerCharSet) rest := by
  by_cases empty : body = []
  · subst empty
    simpa using inSet.close begun text
  · obtain ⟨mode, enclosing, rfl, left⟩ := inSet
    have shorter : (']' :: rest).length < (body ++ ']' :: rest).length := by
      simpa using length_pos_iff.mpr empty
    rw [Scanner.readOn, mode, left, nextPiece_set empty plain rest]
    simp only [Scanner.apply, Scanner.moveTo, shorter, if_true]
    refine Scanner.InSet.close ?_ begun (text ++ body)
    exact ⟨mode, enclosing, rfl, rfl⟩

/-- A bracket in a lexer rule opens a character set. -/
theorem yields_set (plain : ∀ c ∈ body, c ∉ setStops) (rest : List Char) :
    Yields .lexerRule ('[' :: body ++ [']'] ++ rest) .lexerCharSet ('[' :: body ++ [']']) .main rest := by
  intro s ready
  have split : '[' :: body ++ [']'] ++ rest = ['['] ++ (body ++ ']' :: rest) := by simp
  have ended : s.ended = false := by rw [ready.ended]; rfl
  have shorter : (body ++ ']' :: rest).length < (['['] ++ (body ++ ']' :: rest)).length := by simp
  rw [Scanner.next, ended, Scanner.readOn, ready.mode, ready.rest, split,
    nextPiece_bracket]
  simp only [Scanner.apply, Scanner.moveTo, ready.scope, Scanner.enter, if_true, shorter]
  refine Scanner.InSet.readOn ?_ plain s.position ['[']
  exact ⟨rfl, ⟨s.enclosing, congrArg (· :: _) ready.mode⟩, rfl, rfl⟩

/-- The text is spelled as these lexemes: they stand in it in order, with blanks between them at
most, and from the scope on the scanner finds each of them where it stands. -/
inductive Spells : Scope → List Char → List Lexeme → Prop
  | done {scope : Scope} : Spells scope [] []
  | blanks {scope : Scope} {gap rest : List Char} {lexemes : List Lexeme} : gap ≠ [] →
      (∀ c ∈ gap, c ∈ blankChars) → (∀ c, rest.head? = some c → c ∉ blankChars) →
      Spells scope rest lexemes → Spells scope (gap ++ rest) lexemes
  | lexeme {scope : Scope} {l : Lexeme} {rest : List Char} {lexemes : List Lexeme} : l.text ≠ [] →
      l.kind ≠ .endOfFile → Yields scope (l.text ++ rest) l.kind l.text .main rest →
      Spells (scope.after l.kind) rest lexemes → Spells scope (l.text ++ rest) (l :: lexemes)

theorem Scope.after_whitespace (scope : Scope) : scope.after .whitespace = scope := by
  cases scope <;> rfl

/-- A spelled text is scanned without an error into the lexemes that it is spelled as. -/
theorem Spells.scanOn {text : List Char} {lexemes : List Lexeme} (spells : Spells scope text lexemes)
    (ready : s.Ready scope text) {fuel : Nat} (enough : text.length < fuel) :
    (s.scanOn fuel).errors = [] ∧
      ((s.scanOn fuel).tokens.filter (·.channel == .main)).map Token.lexeme = lexemes := by
  induction spells generalizing s fuel with
  | done =>
    obtain _ | fuel := fuel
    · omega
    have ended : s.ended = true := ready.ended
    simp [Scanner.scanOn, Scanner.next, ended, Token.endOfFile]
  | @blanks scope gap rest lexemes some_ blank next _ ih =>
    obtain _ | fuel := fuel
    · omega
    obtain ⟨s', read, later⟩ := yields_blanks some_ blank next scope s ready
    rw [Scope.after_whitespace] at later
    have shorter := length_pos_iff.mpr some_
    rw [length_append] at enough
    obtain ⟨errors, tokens⟩ := ih later (show rest.length < fuel by omega)
    simp [Scanner.scanOn, read, errors, tokens]
  | @lexeme scope l rest lexemes some_ kind yields _ ih =>
    obtain _ | fuel := fuel
    · omega
    obtain ⟨s', read, later⟩ := yields s ready
    have shorter := length_pos_iff.mpr some_
    rw [length_append] at enough
    obtain ⟨errors, tokens⟩ := ih later (show rest.length < fuel by omega)
    simp [Scanner.scanOn, read, kind, errors, tokens, Token.lexeme]

inductive Suffix where
  | optional
  | star
  | plus
deriving DecidableEq, Repr

def Suffix.lexeme : Suffix → Lexeme
  | .optional => ⟨.question, ['?']⟩
  | .star => ⟨.star, ['*']⟩
  | .plus => ⟨.plus, ['+']⟩

/-- A lexeme with the suffix that is written directly behind it. -/
structure Word where
  lexeme : Lexeme
  suffix : Option Suffix
deriving DecidableEq, Repr

namespace Word

def lexemes (w : Word) : List Lexeme := w.lexeme :: (w.suffix.map Suffix.lexeme).toList

def text (w : Word) : List Char := w.lexemes.flatMap (·.text)

end Word

/-- A lexeme that the scanner finds in the scope wherever what follows stands apart. -/
structure Lexeme.Legible (scope : Scope) (l : Lexeme) : Prop where
  text_ne_nil : l.text ≠ []
  solid : ∀ c ∈ l.text.head?, c ∉ blankChars ∧ c ≠ '\x7b'
  kind : l.kind ≠ .endOfFile
  yields : ∀ rest, Apart rest → Yields scope (l.text ++ rest) l.kind l.text .main rest

/-- All words can be read one behind the other from the scope on. -/
def Legible : Scope → List Word → Prop
  | _, [] => True
  | scope, w :: words => w.lexeme.Legible scope ∧ Legible (scope.after w.lexeme.kind) words

theorem Suffix.spells (suffix : Suffix) {lexemes : List Lexeme} (apart : Apart rest)
    (later : Spells scope rest lexemes) :
    Spells scope (suffix.lexeme.text ++ rest) (suffix.lexeme :: lexemes) := by
  have entry : ∃ entry ∈ marks, entry.1.toList = suffix.lexeme.text ∧ entry.2 = suffix.lexeme.kind := by
    cases suffix <;> decide
  obtain ⟨entry, mem, text, kind⟩ := entry
  have yields := yields_mark mem apart scope
  rw [text, kind] at yields
  refine .lexeme (by cases suffix <;> decide) (by cases suffix <;> decide) yields ?_
  have same : scope.after suffix.lexeme.kind = scope := by
    cases suffix <;> cases scope <;> rfl
  rwa [same]

/-- A suffix stands apart from what it is written behind. -/
theorem Suffix.apart (suffix : Suffix) (rest : List Char) : Apart (suffix.lexeme.text ++ rest) := by
  cases suffix <;> exact .inr ⟨_, rest, rfl, .inl (by decide)⟩

theorem Word.spells {lexemes : List Lexeme} (legible : w.lexeme.Legible scope) (apart : Apart rest)
    (later : Spells (scope.after w.lexeme.kind) rest lexemes) :
    Spells scope (w.text ++ rest) (w.lexemes ++ lexemes) := by
  obtain ⟨l, _ | suffix⟩ := w
  · simpa [Word.text, Word.lexemes] using
      Spells.lexeme legible.text_ne_nil legible.kind (legible.yields rest apart) later
  · simpa [Word.text, Word.lexemes] using
      Spells.lexeme legible.text_ne_nil legible.kind (legible.yields _ (suffix.apart rest))
        (suffix.spells apart later)

/-- How words are set apart: blanks in front of the first and behind the last, or none, and some blanks
between any two. -/
structure Layout where
  lead : List Char
  gap : Nat → List Char
  trail : List Char
  lead_blank : ∀ c ∈ lead, c ∈ blankChars
  gap_blank : ∀ i, ∀ c ∈ gap i, c ∈ blankChars
  gap_ne_nil : ∀ i, gap i ≠ []
  trail_blank : ∀ c ∈ trail, c ∈ blankChars

namespace Layout

/-- The text behind a word: the gap with number `i`, the next word and so on. -/
def behind (layout : Layout) : Nat → List Word → List Char
  | _, [] => layout.trail
  | i, w :: words => layout.gap i ++ (w.text ++ layout.behind (i + 1) words)

def write (layout : Layout) : List Word → List Char
  | [] => layout.lead ++ layout.trail
  | w :: words => layout.lead ++ (w.text ++ layout.behind 0 words)

/-- Words between single blanks. -/
def plain : Layout where
  lead := []
  gap _ := [' ']
  trail := []
  lead_blank := by simp
  gap_blank _ := by decide
  gap_ne_nil := by simp
  trail_blank := by simp

end Layout

/-- Blanks can be put in front of what does not start with one. -/
theorem Spells.lead {scope : Scope} {gap rest : List Char} {lexemes : List Lexeme}
    (blank : ∀ c ∈ gap, c ∈ blankChars) (next : ∀ c, rest.head? = some c → c ∉ blankChars)
    (later : Spells scope rest lexemes) : Spells scope (gap ++ rest) lexemes := by
  by_cases empty : gap = []
  · rwa [empty]
  · exact .blanks empty blank next later

theorem apart_blanks {gap rest : List Char} (some_ : gap ≠ []) (blank : ∀ c ∈ gap, c ∈ blankChars)
    (next : ∀ c, rest.head? = some c → c ∉ blankChars ∧ c ≠ '\x7b') : Apart (gap ++ rest) := by
  obtain ⟨first, later, rfl⟩ := exists_cons_of_ne_nil some_
  refine .inr ⟨first, later ++ rest, rfl, .inr ⟨blank first mem_cons_self, ?_⟩⟩
  rw [dropWhile_append_of_pos fun c mem =>
    contains_iff_mem.mpr (blank c (mem_cons_of_mem _ mem))]
  cases rest with
  | nil => simp
  | cons c rest =>
    obtain ⟨solid, noBrace⟩ := next c rfl
    rw [dropWhile_cons_of_neg (by simpa using solid)]
    simpa using noBrace

theorem Word.head_solid (legible : w.lexeme.Legible scope) (rest : List Char) :
    ∀ c, (w.text ++ rest).head? = some c → c ∉ blankChars ∧ c ≠ '\x7b' := by
  intro c head
  rw [Word.text, Word.lexemes, flatMap_cons, append_assoc,
    head?_append_of_ne_nil _ legible.text_ne_nil] at head
  exact legible.solid c head

/-- What is written behind a word stands apart from it and spells the words in it. -/
theorem Layout.behind_spells (layout : Layout) (legible : Legible scope words) (i : Nat) :
    Apart (layout.behind i words) ∧
      Spells scope (layout.behind i words) (words.flatMap Word.lexemes) := by
  induction words generalizing scope i with
  | nil =>
    have spells := @Spells.lead scope _ [] _ layout.trail_blank (by simp) .done
    rw [append_nil] at spells
    refine ⟨?_, spells⟩
    by_cases empty : layout.trail = []
    · exact .inl empty
    · have apart := @apart_blanks _ [] empty layout.trail_blank (by simp)
      rwa [append_nil] at apart
  | cons w words ih =>
    obtain ⟨first, others⟩ := legible
    obtain ⟨apart, later⟩ := ih others (i + 1)
    have solid := Word.head_solid first (layout.behind (i + 1) words)
    exact ⟨apart_blanks (layout.gap_ne_nil i) (layout.gap_blank i) solid,
      .blanks (layout.gap_ne_nil i) (layout.gap_blank i) (fun c head => (solid c head).1)
        (Word.spells first apart later)⟩

/-- Legible words are scanned without an error, however they are laid out. -/
theorem Layout.scan_write (layout : Layout) (some_ : words ≠ []) (legible : Legible .outside words) :
    (scan (layout.write words)).errors = [] ∧
      ((scan (layout.write words)).tokens.filter (·.channel == .main)).map Token.lexeme =
        words.flatMap Word.lexemes := by
  obtain ⟨w, words, rfl⟩ := exists_cons_of_ne_nil some_
  obtain ⟨first, others⟩ := legible
  obtain ⟨apart, later⟩ := layout.behind_spells others 0
  have solid := Word.head_solid first (layout.behind 0 words)
  have spells := Spells.lead layout.lead_blank (fun c head => (solid c head).1)
    (Word.spells first apart later)
  refine spells.scanOn ⟨rfl, rfl, rfl, ?_⟩ (Nat.lt_succ_self _)
  simp [Scanner.start, Word.text, Word.lexemes, first.text_ne_nil]

end GrammarLint.Lexical
