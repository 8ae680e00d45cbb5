import GrammarLint.Proofs.Modes

open List

namespace GrammarLint.Lexical

open Vocabulary

/-- The kind of the tokens of an effect, where it is always the same. -/
def Effect.kind? : Effect → Option Kind
  | .token kind | .aside kind _ | .close kind => some kind
  | _ => none

/-- At a place of the content a piece of text outside of brackets is found. -/
def PieceAt (content : List Char) (position : Position) (effect : Effect) (text : List Char) : Prop :=
  ∃ before left, content = before ++ (text ++ left) ∧ position = .behind before ∧
    nextPiece .default (text ++ left) = .found effect text left

/-- How a token at a place comes to its text: it is one piece of text outside of brackets, or it opens or
belongs to an argument block, or it is a set of characters with the bracket in front. -/
inductive Origin (content : List Char) (position : Position) : Kind → List Char → Prop
  | piece {effect : Effect} {kind : Kind} {text : List Char} : PieceAt content position effect text →
      effect.kind? = some kind → Origin content position kind text
  | name {text : List Char} : PieceAt content position .name text →
      Origin content position (Scanner.nameKind text) text
  | opening : Origin content position .beginArgument ['[']
  | argument {kind : Kind} {text : List Char} : kind ∈ [Kind.argumentContent, .endArgument] →
      Origin content position kind text
  | charSet {kind : Kind} {text : List Char} : kind ∈ [Kind.lexerCharSet, .unterminatedCharSet] →
      text.head? = some '[' → Origin content position kind text

/-- An error is at a bracket, or no rule for the outside of brackets takes what follows it. -/
def Fault (content : List Char) (position : Position) : Prop :=
  ∃ before rest, content = before ++ rest ∧ position = .behind before ∧
    (rest.head? = some '[' ∨ ∃ skipped left, nextPiece .default rest = .skipped skipped left)

namespace Scanner

variable {s s' : Scanner} {depth : Nat} {content before text piece rest : List Char} {effect : Effect} {kind : Kind}
  {channel : Channel} {begun : Position}

theorem origin_outside (within : s.Within 0) (found : nextPiece s.mode s.rest = .found effect piece rest)
    (whole : content = before ++ s.rest) (starts : begun = .behind before)
    (applied : (s.moveTo piece rest).apply effect piece = (some (kind, channel), s')) :
    Origin content begun kind piece := by
  rw [within.outside.1] at found
  rw [← (found_split found).1] at whole found
  have at_ : PieceAt content begun effect piece := ⟨before, rest, whole, starts, found⟩
  rcases default_effect found with plain | rfl
  · cases effect with
    | token _ | aside _ _ =>
      cases applied
      exact .piece at_ rfl
    | name =>
      cases applied
      exact .name at_
    | openBracket | openNested | closeBracket | more | close _ => simp [isPlain] at plain
  · obtain rfl := openBracket_piece found
    simp only [apply] at applied
    split at applied
    · cases applied
    · cases applied
      exact .opening

/-- A piece that ends a token gives it its text. -/
theorem Poised.origin (poised : Poised depth text s) (opened : s.mode = .charSet → text.head? = some '[')
    (found : nextPiece s.mode s.rest = .found effect piece rest)
    (whole : content = before ++ (text ++ s.rest)) (starts : begun = .behind before)
    (applied : (s.moveTo piece rest).apply effect (text ++ piece) = (some (kind, channel), s')) :
    Origin content begun kind (text ++ piece) := by
  cases poised with
  | outside within => exact origin_outside within found whole starts applied
  | argument within something =>
    rw [within.inside.1] at found
    rcases argument_effect something found with rfl | rfl | rfl
    · cases applied
      exact .argument (by simp)
    · cases applied
      refine .argument ?_
      split <;> simp
    · cases applied
      exact .argument (by simp)
  | charSet inSet some_ =>
    have bracket : (text ++ piece).head? = some '[' := by
      rw [head?_append, opened inSet.parts.1]
      rfl
    rw [inSet.parts.1] at found
    rcases charSet_effect found with rfl | rfl | rfl <;> cases applied <;>
      exact .charSet (by simp) bracket

/-- A piece behind which a token goes on has the bracket of a set in front. -/
theorem Poised.opened (poised : Poised depth text s) (opened : s.mode = .charSet → text.head? = some '[')
    (found : nextPiece s.mode s.rest = .found effect piece rest)
    (applied : (s.moveTo piece rest).apply effect (text ++ piece) = (none, s')) :
    (text ++ piece).head? = some '[' := by
  cases poised with
  | outside within =>
    rw [within.outside.1] at found
    rcases default_effect found with plain | rfl
    · cases effect with
      | token _ | aside _ _ | name => cases applied
      | openBracket | openNested | closeBracket | more | close _ => simp [isPlain] at plain
    · obtain rfl := openBracket_piece found
      rfl
  | argument within something =>
    rw [within.inside.1] at found
    rcases argument_effect something found with rfl | rfl | rfl <;> cases applied
  | charSet inSet some_ =>
    rw [head?_append, opened inSet.parts.1]
    rfl

theorem Poised.fault (poised : Poised depth text s) (opened : s.mode = .charSet → text.head? = some '[')
    (lost : nextPiece s.mode s.rest = .skipped piece rest) (whole : content = before ++ (text ++ s.rest))
    (starts : begun = .behind before) : Fault content begun := by
  refine ⟨before, _, whole, starts, ?_⟩
  cases poised with
  | outside within => exact .inr ⟨piece, rest, within.outside.1 ▸ lost⟩
  | argument within something => exact (argument_not_skipped something (within.inside.1 ▸ lost)).elim
  | charSet inSet some_ =>
    rw [head?_append, opened inSet.parts.1]
    exact .inl rfl

/-- What one call gives that begins with a token at a place, of which `text` is known. -/
theorem readOn_origin (s : Scanner) (begun : Position) (text : List Char) (errors : List Position)
    (poised : Poised depth text s) (opened : s.mode = .charSet → text.head? = some '[')
    (whole : content = before ++ (text ++ s.rest)) (starts : begun = .behind before)
    (placed : s.position = .behind (before ++ text)) (faults : ∀ error ∈ errors, Fault content error) :
    (∀ error ∈ (s.readOn begun text errors).errors, Fault content error) ∧
    ((s.readOn begun text errors).token.kind ≠ .endOfFile → Origin content (s.readOn begun text errors).token.position
      (s.readOn begun text errors).token.kind (s.readOn begun text errors).token.text.toList) := by
  induction s, begun, text, errors using readOn_cases generalizing before with
  | nothing lost used =>
    rw [readOn_nothing lost used]
    exact ⟨faults, fun more => absurd rfl more⟩
  | @skip s piece rest _ text _ lost going ih =>
    have fault := poised.fault opened lost whole starts
    rw [readOn_skip lost going]
    obtain ⟨rfl, within | ⟨-, -, used⟩⟩ := poised.skipped lost
    · rw [← (skipped_split lost).1, ← append_assoc, ← append_assoc] at whole
      have moved : (s.moveTo piece rest).position = .behind (before ++ text ++ piece) := by
        rw [moveTo_position, placed, Position.behind_advanceAll]
      exact ih (.outside within) (fun inSet => by cases within.outside.1.symm.trans inSet) whole moved
        (by rwa [append_nil]) (forall_mem_append.mpr ⟨faults, by simpa using fault⟩)
    · exact absurd used going
  | lost lost something =>
    have fault := poised.fault opened lost whole starts
    rw [readOn_lost lost something]
    exact ⟨forall_mem_append.mpr ⟨faults, by simpa using fault⟩, fun more => absurd rfl more⟩
  | token found applied =>
    rw [readOn_token found applied]
    exact ⟨faults, fun _ => by simpa using poised.origin opened found whole starts applied⟩
  | @more s effect piece rest text _ _ _ found applied ih =>
    rw [readOn_more found applied]
    have ends := poised.found found
    obtain ⟨left, position, -⟩ := frame_of_apply applied
    rw [applied] at ends
    cases ends with
    | more later =>
      refine ih later (fun _ => poised.opened opened found applied) ?_ starts ?_ faults
      · rw [left, whole, ← (found_split found).1, append_assoc]
      · rw [position, placed, Position.behind_advanceAll, append_assoc]

theorem Settled.origin (settled : s.Settled) (whole : content = before ++ s.rest)
    (placed : s.position = .behind before) : (∀ error ∈ s.next.errors, Fault content error) ∧
    (s.next.token.kind ≠ .endOfFile →
      Origin content s.next.token.position s.next.token.kind s.next.token.text.toList) := by
  unfold Scanner.next
  split
  · exact ⟨by simp, fun more => absurd rfl more⟩
  · rename_i going
    obtain ⟨between, ⟨depth, within⟩ | ⟨-, ended⟩⟩ := settled
    · refine readOn_origin _ _ _ _ (within.poised between (by simpa using going)) (fun inSet => ?_) whole placed
        (by rwa [append_nil]) (by simp)
      cases depth with
      | zero => simp [within.outside.1] at inSet
      | succ depth => simp [within.inside.1] at inSet
    · exact absurd ended going

/-- Behind a token the scanner is where the token ends. -/
theorem Reads.placed {token : Token} {scanner : Scanner} {position : Position} {errors : List Position}
    (reads : Reads token scanner position text errors) (more : token.kind ≠ .endOfFile) :
    ∃ used, text = used ++ scanner.rest ∧ scanner.position = position.advanceAll used := by
  induction reads with
  | finished ended => exact absurd ended more
  | token _ _ _ _ moved => exact ⟨_, rfl, moved⟩
  | skipped _ _ ih =>
    obtain ⟨used, rfl, moved⟩ := ih
    exact ⟨_ ++ used, (append_assoc ..).symm, by rw [moved, Position.advanceAll_append]⟩

/-- A token that is begun outside of brackets does not belong to an argument block. -/
theorem Settled.outside (settled : s.Settled) (mode : s.mode = .default) :
    s.next.token.kind ∉ [Kind.argumentContent, .endArgument] := by
  have inArgument : ∀ kind ∈ [Kind.argumentContent, .endArgument], kind ∈ argumentKinds := by decide
  obtain ⟨between, ⟨_ | depth, within⟩ | ⟨inSet, -⟩⟩ := settled
  · cases within.next between with
    | token turn =>
      cases turn with
      | plain other => exact mt (fun inside => inArgument _ inside) other
      | opening kind => simp [kind]
    | finished eof | broken eof => simp [eof]
  · cases within.inside.1.symm.trans mode
  · cases inSet.parts.1.symm.trans mode

/-- The tokens of a text, each with the mode in which it is begun. -/
def starts (s : Scanner) : (fuel : Nat) → List (Mode × Token)
  | 0 => []
  | fuel + 1 =>
    if s.next.token.kind = .endOfFile then [] else (s.mode, s.next.token) :: s.next.scanner.starts fuel

theorem starts_tokens (s : Scanner) (fuel : Nat) : (s.starts fuel).map (·.2) = (s.scanOn fuel).tokens := by
  induction fuel generalizing s with
  | zero => rfl
  | succ fuel ih =>
    rw [starts, scanOn]
    by_cases ended : s.next.token.kind = .endOfFile <;> simp [ended, ih]

theorem scanOn_origin (settled : s.Settled) (whole : content = before ++ s.rest)
    (placed : s.position = .behind before) (fuel : Nat) : (∀ error ∈ (s.scanOn fuel).errors, Fault content error) ∧
    ∀ start ∈ s.starts fuel, Origin content start.2.position start.2.kind start.2.text.toList ∧
      (start.1 = .default → start.2.kind ∉ [Kind.argumentContent, .endArgument]) := by
  induction fuel generalizing s before with
  | zero => simp [scanOn, starts]
  | succ fuel ih =>
    obtain ⟨faults, origin⟩ := settled.origin whole placed
    rw [scanOn, starts]
    split
    · exact ⟨faults, by simp⟩
    · rename_i more
      obtain ⟨used, split, moved⟩ := (next_reads s settled.between).1.placed more
      obtain ⟨later, others⟩ := @ih _ (before ++ used) settled.next.1 (by rw [whole, split, append_assoc])
        (by rw [moved, placed, Position.behind_advanceAll])
      exact ⟨forall_mem_append.mpr ⟨faults, later⟩,
        forall_mem_cons.mpr ⟨⟨origin more, settled.outside⟩, others⟩⟩

end Scanner

/-- Every token has its text in one of these ways. -/
theorem scan_origin (text : List Char) :
    ∀ token ∈ (scan text).tokens, Origin text token.position token.kind token.text.toList := by
  rw [scan, ← Scanner.starts_tokens, forall_mem_map]
  exact fun start mem => ((@Scanner.scanOn_origin _ text [] (Scanner.start_settled text) rfl rfl _).2 start mem).1

end GrammarLint.Lexical
