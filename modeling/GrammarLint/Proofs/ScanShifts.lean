import GrammarLint.Proofs.Arguments
import GrammarLint.Proofs.OptionsBlocks
import GrammarLint.Proofs.Relocation

namespace GrammarLint.Lexical

open Phrase (Change)

namespace Position

/-- The place with some characters put in at the start of the first line. -/
def indent (n : Nat) (p : Position) : Position := if p.line = 1 then ⟨1, p.column + n⟩ else p

variable {p : Position} {n : Nat}

theorem line_indent (n : Nat) (p : Position) : (p.indent n).line = p.line := by
  unfold indent
  split
  · rename_i first
    exact first.symm
  · rfl

theorem one_le_line_advance (inside : 1 ≤ p.line) (c : Char) : 1 ≤ (p.advance c).line := by
  unfold advance
  split
  · exact Nat.le_add_left 1 p.line
  · exact inside

theorem one_le_line_advanceAll (inside : 1 ≤ p.line) (text : List Char) :
    1 ≤ (p.advanceAll text).line := by
  induction text generalizing p with
  | nil => exact inside
  | cons c text ih => exact ih (one_le_line_advance inside c)

theorem indent_advance (inside : 1 ≤ p.line) (c : Char) :
    (p.advance c).indent n = (p.indent n).advance c := by
  by_cases feed : (c == '\n') = true
  · have later : p.line + 1 ≠ 1 := by omega
    simp only [advance, feed, if_true, indent, later, if_false]
    split
    · rename_i first
      rw [first]
    · rfl
  · by_cases first : p.line = 1
    · simp [advance, feed, indent, first, Nat.add_right_comm]
    · simp [advance, feed, indent, first]

theorem indent_advanceAll (inside : 1 ≤ p.line) (text : List Char) :
    (p.advanceAll text).indent n = (p.indent n).advanceAll text := by
  induction text generalizing p with
  | nil => rfl
  | cons c text ih =>
    have later := ih (one_le_line_advance inside c)
    rw [indent_advance inside] at later
    exact later

theorem indent_precedes {q : Position} (before : p.Precedes q) : (p.indent n).Precedes (q.indent n) := by
  unfold Precedes at *
  by_cases first : p.line = 1 <;> by_cases second : q.line = 1 <;> simp [indent, first, second] <;> omega

end Position

/-- Kinds of tokens that begin with a bracket, and the end of the file, where a set may break off. -/
def bracketKinds : List Kind := [.beginArgument, .lexerCharSet, .unterminatedCharSet, .endOfFile]

def Scan.shift (n : Nat) (scan : Scan) : Scan :=
  ⟨scan.tokens.map (Token.change (.move (Position.indent n))), scan.errors.map (Position.indent n),
    scan.finish.indent n⟩

namespace Scanner

variable {s s' : Scanner} {n : Nat} {scope : Scope} {begun : Position} {text piece rest : List Char}
  {effect : Effect} {errors : List Position}

def shift (n : Nat) (scope : Scope) (s : Scanner) : Scanner :=
  { s with position := s.position.indent n, scope := scope }

def Reading.shift (n : Nat) (scope : Scope) (r : Reading) : Reading :=
  ⟨r.token.change (.move (Position.indent n)), r.errors.map (Position.indent n), r.scanner.shift n scope⟩

theorem moveTo_shift (inside : 1 ≤ s.position.line) :
    (s.shift n scope).moveTo piece rest = (s.moveTo piece rest).shift n scope := by
  simp [moveTo, shift, Position.indent_advanceAll inside]

variable (n text) in
/-- The scope matters for brackets only. -/
theorem apply_shift (calm : scope = s.scope ∨ effect ≠ .openBracket) :
    (s.shift n scope).apply effect text =
      ((s.apply effect text).1, (s.apply effect text).2.shift n scope) := by
  obtain ⟨_, _, mode, enclosing, own, _⟩ := s
  cases effect with
  | token _ | aside _ _ | name | openNested | more => rfl
  | openBracket =>
    obtain rfl : scope = own := calm.resolve_right (fun other => other rfl)
    by_cases inRule : scope = .lexerRule
    · simp [apply, enter, shift, inRule]
    · simp [apply, enter, shift, inRule]
  | closeBracket | close _ => cases enclosing <;> rfl

/-- A token that is read on within a character set is one, or breaks off. -/
theorem readOn_inCharSet (s : Scanner) (begun : Position) (text : List Char) (errors : List Position)
    (inSet : s.mode = .charSet) : (s.readOn begun text errors).token.kind ∈ bracketKinds := by
  induction s, begun, text, errors using readOn_cases with
  | nothing lost used =>
    rw [readOn_nothing lost used]
    exact (by decide : Kind.endOfFile ∈ bracketKinds)
  | skip lost more ih =>
    rw [readOn_skip lost more]
    exact ih inSet
  | lost lost something =>
    rw [readOn_lost lost something]
    exact (by decide : Kind.endOfFile ∈ bracketKinds)
  | token found applied =>
    rw [readOn_token found applied]
    rw [inSet] at found
    rcases charSet_effect found with rfl | rfl | rfl <;> cases applied
    · exact (by decide : Kind.lexerCharSet ∈ bracketKinds)
    · exact (by decide : Kind.unterminatedCharSet ∈ bracketKinds)
  | more found applied ih =>
    rw [readOn_more found applied]
    refine ih ?_
    rw [inSet] at found
    rcases charSet_effect found with rfl | rfl | rfl <;> cases applied
    exact inSet

/-- What is read outside of brackets, and is no bracket, does not depend on the scope. -/
def Calm (s : Scanner) (begun : Position) (text : List Char) (errors : List Position) : Prop :=
  s.mode = .default ∧ (s.readOn begun text errors).token.kind ∉ bracketKinds

theorem Calm.plain (calm : s.Calm begun text errors)
    (found : nextPiece s.mode s.rest = .found effect piece rest) : isPlain effect = true := by
  obtain ⟨mode, noBracket⟩ := calm
  have found' := found
  rw [mode] at found'
  refine (default_effect found').resolve_right ?_
  rintro rfl
  by_cases inRule : s.scope = .lexerRule
  · have applied : (s.moveTo piece rest).apply .openBracket (text ++ piece) =
        (none, (s.moveTo piece rest).enter .charSet) := if_pos inRule
    rw [readOn_more found applied] at noBracket
    exact noBracket (readOn_inCharSet _ _ _ _ rfl)
  · have applied : (s.moveTo piece rest).apply .openBracket (text ++ piece) =
        (some (.beginArgument, .main), (s.moveTo piece rest).enter .argument) := if_neg inRule
    rw [readOn_token found applied] at noBracket
    exact noBracket (by decide : Kind.beginArgument ∈ bracketKinds)

/-- Reading goes on alike behind some more characters of the first line, and in another scope if there is
no bracket. -/
theorem readOn_shift (s : Scanner) (begun : Position) (text : List Char) (errors : List Position)
    (inside : 1 ≤ s.position.line) (calm : scope = s.scope ∨ s.Calm begun text errors) :
    (s.shift n scope).readOn (begun.indent n) text (errors.map (Position.indent n)) =
      (s.readOn begun text errors).shift n (scope.after (s.readOn begun text errors).token.kind) := by
  induction s, begun, text, errors using readOn_cases with
  | @nothing s piece rest begun errors lost used =>
    have lost' : nextPiece (s.shift n scope).mode (s.shift n scope).rest = .skipped piece rest := lost
    rw [readOn_nothing lost used, readOn_nothing lost' used]
    simp only [Reading.shift, Token.endOfFile, Scope.after_endOfFile]
    rfl
  | @skip s piece rest begun text errors lost more ih =>
    have lost' : nextPiece (s.shift n scope).mode (s.shift n scope).rest = .skipped piece rest := lost
    have behind : 1 ≤ (s.moveTo piece rest).position.line := Position.one_le_line_advanceAll inside piece
    rw [readOn_skip lost' more, moveTo_shift inside]
    unfold Calm at calm
    rw [readOn_skip lost more] at calm ⊢
    have later := ih behind calm
    rw [List.map_append] at later
    exact later
  | @lost s piece begun text errors lost something =>
    have lost' : nextPiece (s.shift n scope).mode (s.shift n scope).rest = .skipped piece [] := lost
    rw [readOn_lost lost something, readOn_lost lost' something, moveTo_shift inside]
    simp only [Reading.shift, Token.endOfFile, Scope.after_endOfFile, List.map_append]
    rfl
  | @token s effect piece rest text begun errors kind channel s' found applied =>
    have found' : nextPiece (s.shift n scope).mode (s.shift n scope).rest = .found effect piece rest :=
      found
    have plain : scope = (s.moveTo piece rest).scope ∨ effect ≠ .openBracket := by
      rcases calm with same | calm
      · exact .inl same
      · have plain := calm.plain found
        exact .inr (by rintro rfl; cases plain)
    have applied' := apply_shift n (text ++ piece) plain
    rw [applied, ← moveTo_shift inside] at applied'
    rw [readOn_token found applied, readOn_token found' applied']
    rfl
  | @more s effect piece rest text begun errors s' found applied ih =>
    have found' : nextPiece (s.shift n scope).mode (s.shift n scope).rest = .found effect piece rest :=
      found
    rcases calm with same | calm
    · have calm : scope = (s.moveTo piece rest).scope ∨ effect ≠ .openBracket := .inl same
      have applied' := apply_shift n (text ++ piece) calm
      obtain ⟨-, position, -, kept⟩ := frame_of_apply applied
      rw [applied, ← moveTo_shift inside] at applied'
      rw [readOn_more found applied, readOn_more found' applied']
      refine ih ?_ (.inl (same.trans kept.symm))
      rw [position]
      exact Position.one_le_line_advanceAll inside piece
    · have plain := calm.plain found
      cases effect with
      | token _ | aside _ _ | name => cases applied
      | openBracket | openNested | closeBracket | more | close _ => cases plain

theorem next_shift (inside : 1 ≤ s.position.line)
    (calm : scope = s.scope ∨ s.mode = .default ∧ s.next.token.kind ∉ bracketKinds) :
    (s.shift n scope).next = s.next.shift n (scope.after s.next.token.kind) := by
  unfold next at calm ⊢
  cases ended : s.ended with
  | true =>
    rw [show (s.shift n scope).ended = true from ended]
    simp only [if_true, Reading.shift, Token.endOfFile, Scope.after_endOfFile]
    rfl
  | false =>
    rw [show (s.shift n scope).ended = false from ended]
    simp only [ended, Bool.false_eq_true, if_false] at calm ⊢
    exact readOn_shift s s.position [] [] inside calm

theorem next_line (inside : 1 ≤ s.position.line) (between : s.Between)
    (more : s.next.token.kind ≠ .endOfFile) : 1 ≤ s.next.scanner.position.line := by
  obtain ⟨reads, -⟩ := next_reads s between
  generalize s.next.errors = skips, s.position = position, s.rest = left at reads inside
  induction reads with
  | finished ended => exact absurd ended more
  | @token _ text _ _ _ _ moved =>
    rw [moved]
    exact Position.one_le_line_advanceAll inside text
  | @skipped _ text _ _ _ _ ih => exact ih (Position.one_le_line_advanceAll inside text)

/-- Scanning goes on alike behind the next token if it is read alike and scanning does so behind it. -/
theorem scanOn_shift_succ {fuel : Nat} {later : Scope}
    (first : (s.shift n scope).next = s.next.shift n later)
    (behind : s.next.token.kind ≠ .endOfFile →
      (s.next.scanner.shift n later).scanOn fuel = (s.next.scanner.scanOn fuel).shift n) :
    (s.shift n scope).scanOn (fuel + 1) = (s.scanOn (fuel + 1)).shift n := by
  unfold scanOn
  rw [first]
  by_cases ended : s.next.token.kind = .endOfFile
  · have ended' : (s.next.shift n later).token.kind = .endOfFile := ended
    simp only [ended, ended', if_true]
    rfl
  · have more : (s.next.shift n later).token.kind ≠ .endOfFile := ended
    simp only [ended, more, if_false]
    rw [show (s.next.shift n later).scanner = s.next.scanner.shift n later from rfl, behind ended]
    simp [Scan.shift, Reading.shift]

theorem scanOn_shift (inside : 1 ≤ s.position.line) (between : s.Between) (fuel : Nat) :
    (s.shift n s.scope).scanOn fuel = (s.scanOn fuel).shift n := by
  induction fuel generalizing s with
  | zero => rfl
  | succ fuel ih =>
    have first := @next_shift s n s.scope inside (.inl rfl)
    rw [← s.next_scope.1] at first
    refine scanOn_shift_succ first fun more => ?_
    exact ih (next_line inside between more) (next_reads s between).2

/-- The kinds of tokens in the declaration of a grammar, but for the semicolon behind it. -/
def headKinds : List Kind := [.lexerKeyword, .parserKeyword, .grammarKeyword, .tokenRef, .ruleRef]

def headScopes : List Scope := [.outside, .lexerRule, .parserRule]

theorem headScopes_after : ∀ scope ∈ headScopes, scope.after .semicolon = .outside ∧
    ∀ kind ∈ headKinds, scope.after kind ∈ headScopes := by decide

theorem Within.next_plain (within : s.Within 0) (between : s.Between)
    (plain : s.next.token.kind ∉ argumentKinds) (more : s.next.token.kind ≠ .endOfFile) :
    s.next.scanner.Within 0 := by
  cases within.next between with
  | token turn later _ =>
    cases turn with
    | plain => exact later
    | opening kind =>
      rw [kind] at plain
      exact absurd (by decide) plain
  | finished ended | broken ended => exact absurd ended more

/-- The tokens of a declaration are the same in any of their scopes, and so is all behind it. -/
theorem scanOn_declaration {fuel : Nat} {heads later : List Kind} (inside : 1 ≤ s.position.line)
    (between : s.Between) (within : s.Within 0) (own : s.scope ∈ headScopes) (other : scope ∈ headScopes)
    (plain : ∀ kind ∈ heads, kind ∈ headKinds)
    (kinds : mainKinds (s.scanOn fuel).tokens = heads ++ .semicolon :: later) :
    (s.shift n scope).scanOn fuel = (s.scanOn fuel).shift n := by
  have calmKinds : ∀ kind ∈ .semicolon :: (headKinds ++ asideKinds),
      kind ∉ bracketKinds ∧ kind ∉ argumentKinds := by decide
  induction fuel generalizing s scope heads with
  | zero => simp [scanOn, mainKinds] at kinds
  | succ fuel ih =>
    by_cases ended : s.next.token.kind = .endOfFile
    · rw [scanOn_tokens_of_end ended] at kinds
      simp [mainKinds] at kinds
    · rw [scanOn_tokens_of_ne ended, mainKinds_cons] at kinds
      have between' := (next_reads s between).2
      have inside' := next_line inside between ended
      obtain ⟨after, aside⟩ := s.next_scope
      -- Neither a blank nor a word of the declaration looks at the scope or leads into brackets.
      have step : ∀ kind ∈ .semicolon :: (headKinds ++ asideKinds), s.next.token.kind = kind →
          (s.shift n scope).next = s.next.shift n (scope.after kind) ∧ s.next.scanner.Within 0 := by
        rintro kind mem rfl
        obtain ⟨noBracket, noArgument⟩ := calmKinds _ mem
        exact ⟨next_shift inside (.inr ⟨within.outside.1, noBracket⟩),
          within.next_plain between noArgument ended⟩
      by_cases main : s.next.token.channel = .main
      · rw [if_pos main] at kinds
        cases heads with
        | nil =>
          have semicolon : s.next.token.kind = .semicolon := (List.cons.inj kinds).1
          obtain ⟨first, -⟩ := step .semicolon (by simp) semicolon
          have outside : s.next.scanner.scope = .outside := by
            rw [after, semicolon, (headScopes_after _ own).1]
          rw [(headScopes_after _ other).1, ← outside] at first
          exact scanOn_shift_succ first fun _ => scanOn_shift inside' between' fuel
        | cons head heads =>
          obtain ⟨same, kinds⟩ := List.cons.inj kinds
          have inHead : head ∈ headKinds := plain head (by simp)
          obtain ⟨first, within'⟩ := step head (by simp [inHead]) same
          have own' : s.next.scanner.scope ∈ headScopes := by
            rw [after, same]
            exact (headScopes_after _ own).2 head inHead
          have other' := (headScopes_after _ other).2 head inHead
          refine scanOn_shift_succ first fun _ => ?_
          exact ih inside' between' within' own' other' (fun kind mem => plain kind (by simp [mem])) kinds
      · rw [if_neg main] at kinds
        have inAside := aside main
        obtain ⟨first, within'⟩ := step _ (by simp [inAside]) rfl
        rw [Scope.after_asideKinds _ _ inAside] at first after
        exact scanOn_shift_succ first fun _ => ih inside' between' within' (after ▸ own) other plain kinds

end Scanner

end GrammarLint.Lexical
