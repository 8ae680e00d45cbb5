import GrammarLint.Proofs.PieceEnds
import GrammarLint.Proofs.QuotedStretches
import GrammarLint.Proofs.TokenMarks

open List

namespace GrammarLint

open Text (IsLiteral LiteralBody Quiet)

namespace Lexical

open Vocabulary

/-- The characters of a pattern are others than the given one. -/
def Pattern.avoids (c : Char) : Pattern → Bool
  | .char s => !s.contains c
  | .atEnd | .empty => true
  | .seq p q | .alt p q => p.avoids c && q.avoids c
  | .many _ p => p.avoids c

variable {p : Pattern} {text : List Char}

theorem Pattern.Takes.avoids {final : Bool} (matched : p.Takes final text) {c : Char} (avoids : p.avoids c = true) :
    c ∉ text := by
  induction matched with
  | char inside =>
    rw [mem_singleton]
    rintro rfl
    simp [Pattern.avoids, inside] at avoids
  | atEnd | empty | stop => simp
  | seq _ _ first second =>
    simp only [Pattern.avoids, Bool.and_eq_true] at avoids
    simp [first avoids.1, second avoids.2]
  | left _ ih | right _ ih =>
    simp only [Pattern.avoids, Bool.and_eq_true] at avoids
    first
    | exact ih avoids.1
    | exact ih avoids.2
  | round _ _ first later =>
    simp [first avoids, later avoids]

theorem literalBody_escape (matched : escape.Takes false text) : LiteralBody text := by
  obtain ⟨_, w, rfl, slash, escaped⟩ := Pattern.takes_seq.mp matched
  rw [Pattern.takes_one.mp slash]
  cases escaped with
  | left single =>
    obtain ⟨c, rfl, -⟩ := Pattern.takes_char.mp single
    exact .escape .nil
  | right others =>
    cases others with
    | left unicode =>
      obtain ⟨_, digits, rfl, letter, inside⟩ := Pattern.takes_seq.mp unicode
      rw [Pattern.takes_one.mp letter]
      exact .escape (LiteralBody.of_plain (inside.avoids (by decide)) (inside.avoids (by decide)))
    | right others =>
      cases others with
      | left single =>
        obtain ⟨c, rfl, -⟩ := Pattern.takes_char.mp single
        exact .escape .nil
      | right ended => cases ended

theorem literalBody_many {greedy : Bool} (many : (Pattern.many greedy p).Takes false text)
    (each : ∀ u, p.Takes false u → LiteralBody u) : LiteralBody text := by
  generalize loop : Pattern.many greedy p = q, goes : false = final at many
  induction many with
  | char _ | atEnd | empty | seq _ _ | left _ | right _ => cases loop
  | stop => exact .nil
  | round first _ _ later =>
    cases loop
    cases goes
    exact (each _ first).append (later rfl rfl)

theorem takes_closedLiteral (matched : closedLiteral.Takes false text) : IsLiteral text := by
  obtain ⟨_, _, rfl, front, closing⟩ := Pattern.takes_seq.mp matched
  obtain ⟨_, body, rfl, opening, inside⟩ := Pattern.takes_seq.mp front
  refine ⟨body, literalBody_many inside fun u one => ?_, ?_⟩
  · cases one with
    | left escaped => exact literalBody_escape escaped
    | right single =>
      exact LiteralBody.of_plain (single.avoids (by decide)) (single.avoids (by decide))
  · rw [Pattern.takes_one.mp opening, Pattern.takes_one.mp closing]
    rfl

def literalRule : LexicalRule := ⟨.plain closedLiteral, .token .stringLiteral⟩

/-- All that is missing is the end of the text. -/
def Wait.endsText : Wait → Bool
  | .atEnd todo => todo.all Pattern.holdsAtEnd
  | .done | .char _ _ => false

theorem Branch.endsText_of_endsHere {b : Branch} (ends : b.endsHere = true) :
    b.thread.wait.endsText = true := by
  unfold Branch.endsHere at ends
  cases wait : b.thread.wait with
  | done | char _ _ => simp [wait] at ends
  | atEnd todo =>
    rw [wait] at ends
    exact (Bool.and_eq_true_iff.mp ends).2

/-- A literal is never ended by the end of the text. -/
theorem literalRule_closed (text : List Char) : (Racer.after literalRule text).endsHere = false := by
  have mem : literalRule ∈ rules .default := by decide
  have never : ∀ w ∈ literalRule.shape.waits, w.endsText = false := by decide +kernel
  rw [Racer.endsHere, any_eq_false]
  intro b inside ends
  have waits := never _ (Racer.after_waits mem text b inside)
  rw [Branch.endsText_of_endsHere ends] at waits
  cases waits

theorem literal_piece {piece rest : List Char} {effect : Effect}
    (found : nextPiece .default text = .found effect piece rest)
    (always : effect.kind? = some .stringLiteral) : IsLiteral piece := by
  have only : ∀ rule ∈ defaultRules, rule.effect.kind? = some .stringLiteral → rule = literalRule := by decide
  obtain ⟨rule, wins, rfl⟩ := nextPiece_wins found
  have same := only rule wins.mem always
  subst same
  cases wins with
  | complete first =>
    have done := find?_some first
    exact takes_closedLiteral ((@Racer.after_isDone true literalRule _ rfl (by decide) piece).mp done)
  | ending _ _ ends => simp [literalRule_closed piece] at ends

def openers : List Kind :=
  [.action, .lexerCharSet, .beginArgument, .optionsOpen, .tokensOpen, .channelsOpen]

/-- The kinds of tokens that stand only in brackets or are no part of a phrase. -/
def innerKinds : List Kind :=
  [.unterminatedStringLiteral, .argumentContent, .endArgument, .unterminatedArgument, .unterminatedCharSet,
    .docComment, .blockComment, .lineComment]

/-- What a reader of literals sees of the text of a token of a kind. -/
structure Readable (kind : Kind) (text : List Char) : Prop where
  literal : kind = .stringLiteral → IsLiteral text
  opener : kind ∈ openers → ∃ front c later, text = front ++ c :: later ∧ Quiet front ∧
    (c = '[' ∨ c = '\x7b')
  quiet : kind ≠ .stringLiteral → kind ∉ openers → kind ∉ innerKinds → Quiet text

/-- The shape is a plain pattern without the characters of quotes and brackets. -/
def Shape.isQuiet : Shape → Bool
  | .plain p => p.isGreedy false && ['\'', '[', '\x7b'].all p.avoids
  | .block _ _ _ => false

section Default

variable {kind : Kind} {effect : Effect} {text piece rest : List Char}

theorem Wins.quiet {rule : LexicalRule} (wins : Wins (rules .default) rule piece rest)
    (isQuiet : rule.shape.isQuiet = true) : Quiet piece := by
  cases shape : rule.shape with
  | plain p =>
    rw [shape, Shape.isQuiet, Bool.and_eq_true, all_eq_true] at isQuiet
    intro c inside isMark
    exact (wins.takes shape isQuiet.1).avoids (isQuiet.2 c isMark) inside
  | block _ _ _ => simp [shape, Shape.isQuiet] at isQuiet

variable (found : nextPiece .default text = .found effect piece rest)

include found

theorem default_quiet
    (always : effect.kind? = some kind) (noLiteral : kind ≠ .stringLiteral) (noOpener : kind ∉ openers)
    (outer : kind ∉ innerKinds) : Quiet piece := by
  have others : ∀ rule ∈ defaultRules, rule.shape.isQuiet = true ∨ ∀ kind ∈ rule.effect.kind?,
      kind = .stringLiteral ∨ kind ∈ openers ∨ kind ∈ innerKinds := by decide +kernel
  obtain ⟨rule, wins, rfl⟩ := nextPiece_wins found
  rcases others rule wins.mem with isQuiet | loud
  · exact wins.quiet isQuiet
  · simpa [noLiteral, noOpener, outer] using loud kind always

theorem default_opener
    (always : effect.kind? = some kind) (opener : kind ∈ openers) :
    ∃ front c later, piece = front ++ c :: later ∧ Quiet front ∧ (c = '[' ∨ c = '\x7b') := by
  have shapes : ∀ rule ∈ defaultRules, ∀ kind ∈ rule.effect.kind?, kind ∈ openers → kind = .action ∨
      ∃ word ∈ ["options", "tokens", "channels"], rule.shape = .plain (blockOpener word) := by decide +kernel
  have words : ∀ word ∈ ["options", "tokens", "channels"], (blockOpener word).isGreedy false = true ∧
      Quiet word.toList := by decide
  have blanks : Quiet blankChars := by decide
  obtain ⟨rule, wins, rfl⟩ := nextPiece_wins found
  rcases shapes rule wins.mem kind always opener with rfl | ⟨word, mem, shape⟩
  · have first := (default_marked found always).mark '\x7b' rfl
    obtain ⟨later, rfl⟩ := head?_eq_some_iff.mp first
    exact ⟨[], _, later, rfl, by simp [Quiet], .inr rfl⟩
  · obtain ⟨greedy, quiet⟩ := words word mem
    obtain ⟨gap, split, inGap⟩ := takes_blockOpener.mp (wins.takes shape greedy)
    refine ⟨word.toList ++ gap, _, [], by simp [split], fun c inside => ?_, .inr rfl⟩
    rcases mem_append.mp inside with inWord | blank
    · exact quiet c inWord
    · exact blanks c (inGap c blank)

end Default

theorem Origin.readable {content : List Char} {position : Position} {kind : Kind}
    (origin : Origin content position kind text) : Readable kind text := by
  cases origin with
  | piece found always =>
    obtain ⟨_, _, -, -, found⟩ := found
    exact ⟨fun same => literal_piece found (same ▸ always), default_opener found always,
      default_quiet found always⟩
  | name found =>
    have isQuiet : ∀ rule ∈ defaultRules, rule.effect = .name → rule.shape.isQuiet = true := by decide +kernel
    obtain ⟨_, _, -, -, found⟩ := found
    obtain ⟨rule, wins, same⟩ := nextPiece_wins found
    have quiet := wins.quiet (isQuiet rule wins.mem same)
    unfold Scanner.nameKind
    split <;> exact ⟨by simp, by simp [openers], fun _ _ _ => quiet⟩
  | opening => exact ⟨by simp, fun _ => ⟨[], _, [], rfl, by simp [Quiet], .inl rfl⟩, by simp [openers]⟩
  | argument mem =>
    have inner : ∀ kind ∈ [Kind.argumentContent, .endArgument], kind ≠ .stringLiteral ∧ kind ∉ openers ∧
        kind ∈ innerKinds := by decide
    obtain ⟨noLiteral, noOpener, isInner⟩ := inner kind mem
    exact ⟨fun same => absurd same noLiteral, fun opener => absurd opener noOpener,
      fun _ _ outer => absurd isInner outer⟩
  | charSet mem bracket =>
    have sets : ∀ kind ∈ [Kind.lexerCharSet, .unterminatedCharSet], kind ≠ .stringLiteral ∧
        (kind ∈ openers ∨ kind ∈ innerKinds) := by decide
    obtain ⟨noLiteral, either⟩ := sets kind mem
    obtain ⟨later, rfl⟩ := head?_eq_some_iff.mp bracket
    exact ⟨fun same => absurd same noLiteral, fun _ => ⟨[], _, later, rfl, by simp [Quiet], .inl rfl⟩,
      fun _ noOpener outer => absurd either (by simp [noOpener, outer])⟩

end Lexical

end GrammarLint
