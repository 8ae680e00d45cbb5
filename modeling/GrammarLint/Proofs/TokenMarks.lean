import GrammarLint.Proofs.TokenOrigins

namespace GrammarLint.Lexical

open Vocabulary

/-- The character with which all tokens of a kind begin, for kinds other than names that can stand in
the elements of a parser rule. -/
def Kind.mark? : Kind → Option Char
  | .stringLiteral => some '\''
  | .action => some '\x7b'
  | .leftParen => some '('
  | .tilde => some '~'
  | .dot => some '.'
  | .question => some '?'
  | .star => some '*'
  | .plus | .plusAssign => some '+'
  | .assign => some '='
  | .less => some '<'
  | _ => none

def Kind.isName (kind : Kind) : Bool := kind == .tokenRef || kind == .ruleRef

/-- How the text of a token begins, by its kind. -/
structure Marked (kind : Kind) (text : List Char) : Prop where
  mark : ∀ c ∈ kind.mark?, text.head? = some c
  name : kind.isName = true → text ≠ [] ∧ Scanner.nameKind text = kind

def Kind.isPlain (kind : Kind) : Bool := kind.mark?.isNone && !kind.isName

variable {kind : Kind}

theorem Marked.of_isPlain (plain : kind.isPlain = true) (text : List Char) :
    Marked kind text := by
  rw [Kind.isPlain, Bool.and_eq_true, Option.isNone_iff_eq_none, Bool.not_eq_true'] at plain
  exact ⟨by simp [plain.1], by simp [plain.2]⟩

section FirstCharacter

variable {text piece rest : List Char} {effect : Effect} {kind : Kind}

/-- The first character of a piece is one that its rule waits for from the start. -/
theorem default_first (found : nextPiece .default text = .found effect piece rest) :
    ∃ rule ∈ defaultRules, rule.effect = effect ∧ ∃ c later, piece = c :: later ∧
      ∃ b ∈ (Racer.after rule []).branches, ∃ s ∈ b.awaits, s.contains c = true := by
  obtain ⟨rule, wins, same⟩ := nextPiece_wins found
  have mem : rule ∈ defaultRules := wins.mem
  have alive : (Racer.after rule piece).isDone = true ∨ (Racer.after rule piece).endsHere = true := by
    cases wins with
    | complete first => exact .inl (by simpa using List.find?_some first)
    | ending _ _ ends => exact .inr ends
  refine ⟨rule, mem, same, ?_⟩
  cases piece with
  | nil =>
    have fresh : ∀ r ∈ defaultRules, (Racer.after r []).isDone = false ∧
      (Racer.after r []).endsHere = false := by decide +kernel
    simp [fresh rule mem] at alive
  | cons c later =>
    refine ⟨c, later, rfl, ?_⟩
    by_contra unread
    push Not at unread
    have first := Racer.stops fun b inBranches s waits =>
      Bool.eq_false_of_not_eq_true (unread b inBranches s waits)
    have gone := Racer.after_dead first later
    rw [List.nil_append, List.singleton_append] at gone
    simp [Racer.isDone_of_dead gone, Racer.endsHere_of_dead gone] at alive

/-- A rule for tokens with a mark waits for the mark, and no rule but that of names makes a name. -/
def LexicalRule.keepsMark (rule : LexicalRule) : Bool :=
  rule.effect.kind?.all fun kind => !kind.isName && kind.mark?.all fun c =>
    (Racer.after rule []).branches.all fun b => b.awaits.all (· == .ofChars false [c])

theorem default_marks : defaultRules.all LexicalRule.keepsMark = true := by decide +kernel

theorem LexicalRule.keepsMark_iff {rule : LexicalRule}
    (always : rule.effect.kind? = some kind) : rule.keepsMark = true ↔ kind.isName = false ∧
      ∀ c ∈ kind.mark?, ∀ b ∈ (Racer.after rule []).branches, ∀ s ∈ b.awaits,
        s = .ofChars false [c] := by
  simp [keepsMark, always, Option.all_eq_true]

theorem default_marked (found : nextPiece .default text = .found effect piece rest)
    (always : effect.kind? = some kind) : Marked kind piece := by
  obtain ⟨rule, mem, rfl, c, later, rfl, b, inBranches, s, waits, contains⟩ := default_first found
  have keeps := List.all_eq_true.mp default_marks rule mem
  obtain ⟨noName, marks⟩ := (LexicalRule.keepsMark_iff always).mp keeps
  refine ⟨fun d isMark => ?_, by simp [noName]⟩
  rw [marks d isMark b inBranches s waits, CharClass.ofChars, CharClass.contains_chars] at contains
  simpa using contains

theorem nameKind_marked (found : nextPiece .default text = .found .name piece rest) :
    Marked (Scanner.nameKind piece) piece := by
  obtain ⟨rule, -, -, c, later, rfl, -⟩ := default_first found
  refine ⟨?_, fun _ => ⟨List.cons_ne_nil c later, rfl⟩⟩
  unfold Scanner.nameKind
  split <;> simp [Kind.mark?]

end FirstCharacter

theorem Origin.marked {content text : List Char} {position : Position}
    (origin : Origin content position kind text) : Marked kind text := by
  have plain : (∀ kind ∈ [Kind.argumentContent, .endArgument], kind.isPlain = true) ∧
    ∀ kind ∈ [Kind.lexerCharSet, .unterminatedCharSet], kind.isPlain = true := by decide
  cases origin with
  | piece found always =>
    obtain ⟨_, _, -, -, found⟩ := found
    exact default_marked found always
  | name found =>
    obtain ⟨_, _, -, -, found⟩ := found
    exact nameKind_marked found
  | opening => exact .of_isPlain rfl _
  | argument mem => exact .of_isPlain (plain.1 _ mem) _
  | charSet mem => exact .of_isPlain (plain.2 _ mem) _

/-- The text of each token begins as its kind says. -/
theorem scan_marked (text : List Char) :
    ∀ token ∈ (scan text).tokens, Marked token.kind token.text.toList :=
  fun token mem => (scan_origin text token mem).marked

end GrammarLint.Lexical
