import GrammarLint.Proofs.Modes

open List

namespace GrammarLint.Lexical

/-- Tokens turn the number of open argument brackets one after the other. -/
inductive Turns : Nat → List Token → Nat → Prop
  | nil {depth : Nat} : Turns depth [] depth
  | cons {depth next last : Nat} {token : Token} {tokens : List Token} : Turn depth token next →
      Turns next tokens last → Turns depth (token :: tokens) last

/-- The opening less the closing brackets among tokens that consist of one bracket. -/
def bracketBalance (tokens : List Token) : Int :=
  tokens.countP (·.text = "[") - tokens.countP (·.text = "]")

theorem bracketBalance_append (tokens others : List Token) :
    bracketBalance (tokens ++ others) = bracketBalance tokens + bracketBalance others := by
  simp only [bracketBalance, countP_append]
  omega

variable {token : Token}

theorem bracketBalance_open {token : Token} (text : token.text = "[") :
    bracketBalance [token] = 1 := by
  simp [bracketBalance, text]

theorem bracketBalance_close {token : Token} (text : token.text = "]") :
    bracketBalance [token] = -1 := by
  simp [bracketBalance, text]

/-- The token is the first closing bracket in a block at which the brackets balance. -/
def FirstBalanced (opening : Token) (inside : List Token) (token : Token) : Prop :=
  token.text = "]" ∧ bracketBalance (opening :: inside ++ [token]) = 0 ∧
    ∀ earlier bracket later, inside = earlier ++ bracket :: later → bracket.text = "]" →
      bracketBalance (opening :: earlier ++ [bracket]) ≠ 0

namespace Turn

variable {depth later : Nat} {token : Token}

theorem of_begin (turn : Turn depth token later) (begins : token.kind = .beginArgument) :
    depth = 0 ∧ later = 1 ∧ token.text = "[" := by
  cases turn with
  | plain outside => simp [begins, argumentKinds] at outside
  | opening _ text => exact ⟨rfl, rfl, text⟩
  | nested kind _ | content kind _ _ | unnested kind _ | ending kind _ => simp [begins] at kind

theorem inside (turn : Turn (depth + 1) token later) :
    token.kind = .argumentContent ∧ 0 < later ∨ token.kind = .endArgument ∧ later = 0 := by
  cases turn with
  | nested kind _ | content kind _ _ | unnested kind _ => exact .inl ⟨kind, Nat.succ_pos _⟩
  | ending kind _ => exact .inr ⟨kind, rfl⟩

theorem depth_pos (turn : Turn depth token later)
    (within : token.kind = .argumentContent ∨ token.kind = .endArgument) : 0 < depth := by
  cases turn with
  | plain outside => rcases within with kind | kind <;> simp [kind, argumentKinds] at outside
  | opening kind _ => rcases within with other | other <;> simp [kind] at other
  | nested _ _ | content _ _ _ | unnested _ _ | ending _ _ => exact Nat.succ_pos _

theorem kind_ne_unterminated (turn : Turn depth token later) : token.kind ≠ .unterminatedArgument := by
  intro same
  cases turn with
  | plain outside => simp [same, argumentKinds] at outside
  | opening kind _ | nested kind _ | content kind _ _ | unnested kind _ | ending kind _ =>
    simp [same] at kind

/-- Inside a block a token adds its bracket to the number of open ones. -/
theorem balance (turn : Turn (depth + 1) token later) :
    (later : Int) = (depth + 1 : Nat) + bracketBalance [token] := by
  cases turn with
  | nested _ text => rw [bracketBalance_open text]; omega
  | unnested _ text | ending _ text => rw [bracketBalance_close text]; omega
  | content _ notOpen notClose => simp [bracketBalance, notOpen, notClose]

/-- A block ends at the closing bracket that leaves none open. -/
theorem ends_iff (turn : Turn (depth + 1) token later) :
    token.kind = .endArgument ↔ token.text = "]" ∧ later = 0 := by
  cases turn with
  | nested kind _ | content kind _ _ | unnested kind _ => simp [kind]
  | ending kind text => simp [kind, text]

end Turn

namespace Turns

variable {depth last : Nat} {tokens after inside : List Token} {opening token : Token}

theorem split {before : List Token} (turns : Turns depth (before ++ after) last) :
    ∃ middle, Turns depth before middle ∧ Turns middle after last := by
  induction before generalizing depth with
  | nil => exact ⟨depth, .nil, turns⟩
  | cons token before ih =>
    cases turns with
    | cons turn later =>
      obtain ⟨middle, first, second⟩ := ih later
      exact ⟨middle, .cons turn first, second⟩

/-- Inside a block there is content only, up to its end or that of the tokens. -/
theorem block (turns : Turns (depth + 1) tokens last) :
    ∃ inside rest, tokens = inside ++ rest ∧ (∀ token ∈ inside, token.kind = .argumentContent) ∧
      (rest = [] ∨ ∃ closing later, rest = closing :: later ∧ closing.kind = .endArgument) := by
  induction tokens generalizing depth with
  | nil => exact ⟨[], [], rfl, by simp, .inl rfl⟩
  | cons token tokens ih =>
    cases turns with
    | @cons _ next _ _ _ turn later =>
      rcases turn.inside with ⟨content, positive⟩ | ⟨ends, -⟩
      · obtain ⟨next, rfl⟩ := Nat.exists_eq_add_one.mpr positive
        obtain ⟨inside, rest, rfl, all, closed⟩ := ih later
        exact ⟨token :: inside, rest, rfl, forall_mem_cons.mpr ⟨content, all⟩, closed⟩
      · exact ⟨[], token :: tokens, rfl, by simp, .inr ⟨token, tokens, rfl, ends⟩⟩

/-- Where brackets are open behind tokens that start with none, the tokens end within a block. -/
theorem opened (turns : Turns 0 tokens (last + 1)) :
    ∃ earlier opening inside, tokens = earlier ++ opening :: inside ∧
      opening.kind = .beginArgument ∧ ∀ token ∈ inside, token.kind = .argumentContent := by
  induction tokens using reverseRecOn generalizing last with
  | nil => cases turns
  | append_singleton tokens token ih =>
    obtain ⟨middle, before, ends⟩ := turns.split
    cases ends with
    | cons turn nothing =>
      cases nothing
      cases middle with
      | zero =>
        cases turn with
        | opening kind _ => exact ⟨tokens, token, [], rfl, kind, by simp⟩
      | succ middle =>
        obtain ⟨earlier, opening, inside, rfl, begins, all⟩ := ih before
        rcases turn.inside with ⟨content, -⟩ | ⟨-, none⟩
        · refine ⟨earlier, opening, inside ++ [token], by simp, begins, fun other mem => ?_⟩
          rcases mem_append.mp mem with inInside | isLast
          · exact all other inInside
          · cases mem_singleton.mp isLast
            exact content
        · simp at none

/-- The content of a block leaves brackets open, as many as it has more opening than closing ones. -/
theorem balance (turns : Turns (depth + 1) inside last)
    (all : ∀ token ∈ inside, token.kind = .argumentContent) :
    0 < last ∧ (last : Int) = (depth + 1 : Nat) + bracketBalance inside := by
  induction inside generalizing depth with
  | nil =>
    cases turns
    simp [bracketBalance]
  | cons token inside ih =>
    cases turns with
    | @cons _ next _ _ _ turn later =>
      obtain ⟨content, others⟩ := forall_mem_cons.mp all
      rcases turn.inside with ⟨-, positive⟩ | ⟨ends, -⟩
      · obtain ⟨next, rfl⟩ := Nat.exists_eq_add_one.mpr positive
        obtain ⟨open_, count⟩ := ih later others
        have first := turn.balance
        rw [← singleton_append, bracketBalance_append]
        exact ⟨open_, by omega⟩
      · simp [content] at ends

/-- In a block the end is the closing bracket at which the brackets since its opening balance. -/
theorem ends_iff
    (turns : Turns depth (opening :: (inside ++ token :: after)) last)
    (begins : opening.kind = .beginArgument) (all : ∀ token ∈ inside, token.kind = .argumentContent) :
    token.kind = .endArgument ↔
      token.text = "]" ∧ bracketBalance (opening :: inside ++ [token]) = 0 := by
  cases turns with
  | cons first later =>
    obtain ⟨rfl, rfl, text⟩ := first.of_begin begins
    obtain ⟨middle, within, rest⟩ := later.split
    obtain ⟨open_, count⟩ := within.balance all
    obtain ⟨middle, rfl⟩ := Nat.exists_eq_add_one.mpr open_
    cases rest with
    | cons turn _ =>
      have last := turn.balance
      rw [turn.ends_iff, bracketBalance_append, ← singleton_append, bracketBalance_append,
        bracketBalance_open text]
      constructor <;> rintro ⟨closes, none⟩ <;> exact ⟨closes, by omega⟩

theorem firstBalanced_iff
    (turns : Turns depth (opening :: (inside ++ token :: after)) last)
    (begins : opening.kind = .beginArgument) (all : ∀ token ∈ inside, token.kind = .argumentContent) :
    token.kind = .endArgument ↔ FirstBalanced opening inside token := by
  rw [turns.ends_iff begins all]
  constructor
  · rintro ⟨closes, balanced⟩
    refine ⟨closes, balanced, ?_⟩
    rintro earlier bracket later rfl bracketCloses early
    have content := all bracket (by simp)
    rw [append_assoc] at turns
    have ends := (turns.ends_iff begins fun other mem => all other (by simp [mem])).mpr
      ⟨bracketCloses, early⟩
    simp [content] at ends
  · rintro ⟨closes, balanced, -⟩
    exact ⟨closes, balanced⟩

theorem kind_ne_unterminated (turns : Turns depth tokens last) :
    ∀ token ∈ tokens, token.kind ≠ .unterminatedArgument := by
  induction turns with
  | nil => simp
  | cons turn _ ih => exact forall_mem_cons.mpr ⟨turn.kind_ne_unterminated, ih⟩

end Turns

namespace Scanner

variable {s : Scanner} {depth : Nat}

theorem scanOn_tokens_of_end (ended : s.next.token.kind = .endOfFile) (fuel : Nat) :
    (s.scanOn (fuel + 1)).tokens = [] := by
  simp [scanOn, ended]

theorem scanOn_tokens_of_ne (inside : s.next.token.kind ≠ .endOfFile) (fuel : Nat) :
    (s.scanOn (fuel + 1)).tokens = s.next.token :: (s.next.scanner.scanOn fuel).tokens := by
  simp [scanOn, inside]

theorem scanOn_turns (within : s.Within depth) (between : s.Between) (fuel : Nat) :
    ∃ last, Turns depth (s.scanOn fuel).tokens last := by
  induction fuel generalizing s depth with
  | zero => exact ⟨depth, .nil⟩
  | succ fuel ih =>
    by_cases ended : s.next.token.kind = .endOfFile
    · rw [scanOn_tokens_of_end ended]
      exact ⟨depth, .nil⟩
    · rw [scanOn_tokens_of_ne ended]
      cases within.next between with
      | token turn within _ =>
        obtain ⟨last, turns⟩ := ih within (next_reads s between).2
        exact ⟨last, .cons turn turns⟩
      | finished eof _ | broken eof _ => exact absurd eof ended

theorem scanOn_nil (between : s.Between) (used : s.rest = []) (fuel : Nat) :
    (s.scanOn fuel).tokens = [] := by
  cases fuel with
  | zero => rfl
  | succ fuel =>
    refine scanOn_tokens_of_end ?_ fuel
    by_contra inside
    have shorter := (next_reads s between).1.rest_length inside
    simp [used] at shorter

/-- An unfinished character set is the last token. -/
theorem scanOn_unterminated (within : s.Within depth) (between : s.Between) {fuel : Nat}
    {before after : List Token} {token : Token}
    (split : (s.scanOn fuel).tokens = before ++ token :: after)
    (unfinished : token.kind = .unterminatedCharSet) : after = [] := by
  induction fuel generalizing s depth before with
  | zero => simp [scanOn] at split
  | succ fuel ih =>
    have later := (next_reads s between).2
    by_cases ended : s.next.token.kind = .endOfFile
    · simp [scanOn_tokens_of_end ended] at split
    · rw [scanOn_tokens_of_ne ended] at split
      cases within.next between with
      | finished eof _ | broken eof _ => exact absurd eof ended
      | token turn within last =>
        cases before with
        | nil =>
          obtain ⟨rfl, rest⟩ := cons.inj split
          rw [← rest, scanOn_nil later (last unfinished)]
        | cons first before => exact ih within later (cons.inj split).2

end Scanner

theorem scan_turns (content : List Char) : ∃ last, Turns 0 (scan content).tokens last :=
  Scanner.scanOn_turns (Scanner.start_within content) (Scanner.start_between content) _

/-- Argument blocks are bracketed: what opens one is followed by content only, up to the end of the
block or of the file; content and ends of blocks stand nowhere else; a block ends at the first
closing bracket at which its brackets balance. No block ends with a token for its missing end, and
what stands for a missing end of a character set is the last token. -/
theorem scan_arguments (content : List Char) :
    (∀ before opening after, (scan content).tokens = before ++ opening :: after →
      opening.kind = .beginArgument →
      ∃ inside rest, after = inside ++ rest ∧ (∀ token ∈ inside, token.kind = .argumentContent) ∧
        (rest = [] ∨ ∃ closing later, rest = closing :: later ∧ closing.kind = .endArgument)) ∧
    (∀ before token after, (scan content).tokens = before ++ token :: after →
      token.kind = .argumentContent ∨ token.kind = .endArgument →
      ∃ earlier opening inside, before = earlier ++ opening :: inside ∧
        opening.kind = .beginArgument ∧ ∀ token ∈ inside, token.kind = .argumentContent) ∧
    (∀ before opening inside token after,
      (scan content).tokens = before ++ opening :: (inside ++ token :: after) →
      opening.kind = .beginArgument → (∀ token ∈ inside, token.kind = .argumentContent) →
      (token.kind = .endArgument ↔ FirstBalanced opening inside token)) ∧
    (∀ token ∈ (scan content).tokens, token.kind ≠ .unterminatedArgument) ∧
    ∀ before token after, (scan content).tokens = before ++ token :: after →
      token.kind = .unterminatedCharSet → after = [] := by
  obtain ⟨last, turns⟩ := scan_turns content
  refine ⟨fun before opening after split begins => ?_, fun before token after split within => ?_,
    fun before opening inside token after split begins all => ?_, turns.kind_ne_unterminated,
    fun before token after => Scanner.scanOn_unterminated (Scanner.start_within content)
      (Scanner.start_between content)⟩
  all_goals
    rw [split] at turns
    obtain ⟨middle, first, second⟩ := turns.split
  · cases second with
    | cons turn later =>
      obtain ⟨-, rfl, -⟩ := turn.of_begin begins
      exact later.block
  · cases second with
    | cons turn _ =>
      obtain ⟨middle, rfl⟩ := Nat.exists_eq_add_one.mpr (turn.depth_pos within)
      exact first.opened
  · exact second.firstBalanced_iff begins all

end GrammarLint.Lexical
