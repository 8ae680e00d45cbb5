import GrammarLint.Proofs.ReadingSteps

open List

namespace GrammarLint.Lexical

namespace Position

/-- The place behind a text that begins a file, counted in the text itself: its line feeds, and the
characters since the last of them. -/
def behind (before : List Char) : Position :=
  ⟨1 + before.count '\n', (before.reverse.takeWhile (· != '\n')).length⟩

theorem advanceAll_append (position : Position) (u v : List Char) :
    position.advanceAll (u ++ v) = (position.advanceAll u).advanceAll v :=
  foldl_append

theorem advance_behind (before : List Char) (c : Char) :
    (behind before).advance c = behind (before ++ [c]) := by
  by_cases feed : c = '\n'
  · subst feed
    simp [behind, advance, Nat.add_assoc]
  · simp [behind, advance, feed]

/-- Counting on is counting in what lies before. -/
theorem behind_advanceAll (before text : List Char) : (behind before).advanceAll text = behind (before ++ text) := by
  induction text generalizing before with
  | nil => simp [advanceAll]
  | cons c rest ih =>
    have step := ih (before ++ [c])
    rw [← advance_behind] at step
    simpa [advanceAll] using step

theorem start_advanceAll (text : List Char) : start.advanceAll text = behind text := by
  simpa [behind, start] using behind_advanceAll [] text

end Position

namespace Scanner

/-- What one call of the scanner reads from a place on: stretches that errors skip, and then a token
or the end of the text. -/
inductive Reads (token : Token) (scanner : Scanner) : Position → List Char → List Position → Prop
  | finished {position : Position} : token.kind = .endOfFile → token.position = position →
      scanner.rest = [] → Reads token scanner position [] []
  | token {position : Position} {text : List Char} : text ≠ [] → token.kind ≠ .endOfFile →
      token.text = String.ofList text → token.position = position →
      scanner.position = position.advanceAll text →
      Reads token scanner position (text ++ scanner.rest) []
  | skipped {position : Position} {text rest : List Char} {errors : List Position} : text ≠ [] →
      Reads token scanner (position.advanceAll text) rest errors →
      Reads token scanner position (text ++ rest) (position :: errors)

/-- One call reads the rest of the text as stretches that errors skip, followed by a token or by the
end of the text, and counts places as it goes. -/
theorem readOn_reads (s : Scanner) (begun : Position) (text : List Char) (errors : List Position)
    (placed : s.position = begun.advanceAll text) (ready : s.rest ≠ [] ∨ text ≠ [] ∨ s.mode = .default) :
    ∃ skips, (s.readOn begun text errors).errors = errors ++ skips ∧
      Reads (s.readOn begun text errors).token (s.readOn begun text errors).scanner begun
        (text ++ s.rest) skips ∧
      (s.readOn begun text errors).scanner.ended = (s.readOn begun text errors).scanner.rest.isEmpty := by
  induction s, begun, text, errors using readOn_cases with
  | nothing lost used =>
    rw [readOn_nothing lost used]
    refine ⟨[], by simp, ?_, by simp [used]⟩
    rw [used]
    exact .finished rfl placed rfl
  | @skip s piece rest begun text errors lost more ih =>
    obtain ⟨split, nonempty⟩ := skipped_split lost
    obtain ⟨skips, errorsEq, reads, ended⟩ := ih rfl (.inl more)
    rw [readOn_skip lost more]
    refine ⟨begun :: skips, errorsEq.trans (append_cons ..).symm, ?_, ended⟩
    rw [← split, ← append_assoc]
    refine .skipped (by simp [nonempty (skipped_more lost more).1]) ?_
    simpa [placed, Position.advanceAll_append] using reads
  | lost lost something =>
    obtain ⟨split, nonempty⟩ := skipped_split lost
    rw [readOn_lost lost something]
    refine ⟨[_], rfl, ?_, rfl⟩
    rw [← split, ← append_assoc]
    refine .skipped ?_ (.finished rfl ?_ rfl)
    · intro empty
      simp_all
    · simp [placed, Position.advanceAll_append, Token.endOfFile]
  | @token s _ _ _ _ _ _ _ _ _ found applied =>
    obtain ⟨split, nonempty⟩ := found_split found
    obtain ⟨rule, mem, same⟩ := nextPiece_effect found
    have plain := same ▸ rules_never_endFile _ rule mem
    obtain ⟨restEq, positionEq, endedEq, -⟩ := frame_of_apply applied
    rw [readOn_token found applied]
    refine ⟨[], by simp, ?_, by simp [endedEq, restEq]⟩
    rw [← split, ← append_assoc, ← restEq]
    refine .token ?_ (apply_kind_ne_endOfFile plain applied) rfl rfl ?_
    · intro empty
      obtain ⟨noText, noPiece⟩ := append_eq_nil_iff.mp empty
      rcases ready with some_rest | some_text | inDefault
      · exact nonempty some_rest noPiece
      · exact some_text noText
      · by_cases some_rest : s.rest = []
        · rw [some_rest, inDefault, nextPiece_nil] at found
          simp at found
        · exact nonempty some_rest noPiece
    · simp [positionEq, placed, Position.advanceAll_append]
  | more found applied ih =>
    obtain ⟨split, nonempty⟩ := found_split found
    have something := rest_ne_nil_of_apply_none found applied
    obtain ⟨restEq, positionEq, -⟩ := frame_of_apply applied
    rw [readOn_more found applied]
    obtain ⟨skips, errorsEq, reads, ended⟩ := ih
      (by rw [positionEq, placed, Position.advanceAll_append])
      (.inr (.inl (by simp [nonempty something])))
    refine ⟨skips, errorsEq, ?_, ended⟩
    rwa [append_assoc, restEq, split] at reads

end Scanner

/-- A text from a place on, laid out without gaps as the given tokens and as one skipped stretch for
each of the given errors. -/
inductive Tiles : Position → List Char → List Token → List Position → Prop
  | done {position : Position} : Tiles position [] [] []
  | token {position : Position} {text rest : List Char} {token : Token} {tokens : List Token}
      {errors : List Position} : text ≠ [] → token.text = String.ofList text →
      token.position = position → Tiles (position.advanceAll text) rest tokens errors →
      Tiles position (text ++ rest) (token :: tokens) errors
  | skipped {position : Position} {text rest : List Char} {tokens : List Token}
      {errors : List Position} : text ≠ [] →
      Tiles (position.advanceAll text) rest tokens errors →
      Tiles position (text ++ rest) tokens (position :: errors)

namespace Scanner

variable {token : Token} {scanner : Scanner} {position : Position} {text : List Char}
  {skips : List Position}

section

variable (reads : Reads token scanner position text skips)

include reads

theorem Reads.tiles {errors : List Position} {tokens : List Token} (inside : token.kind ≠ .endOfFile)
    (later : Tiles scanner.position scanner.rest tokens errors) :
    Tiles position text (token :: tokens) (skips ++ errors) := by
  induction reads with
  | finished ended => exact absurd ended inside
  | token nonempty _ textEq placed moved => exact .token nonempty textEq placed (moved ▸ later)
  | skipped nonempty _ ih => exact .skipped nonempty ih

theorem Reads.tiles_of_endOfFile
    (ended : token.kind = .endOfFile) : Tiles position text [] skips := by
  induction reads with
  | finished => exact .done
  | token _ inside => exact absurd ended inside
  | skipped nonempty _ ih => exact .skipped nonempty ih

/-- A token takes some text, so less is left behind it. -/
theorem Reads.rest_length
    (inside : token.kind ≠ .endOfFile) : scanner.rest.length < text.length := by
  induction reads with
  | finished ended => exact absurd ended inside
  | token nonempty =>
    have positive := length_pos_iff.mpr nonempty
    rw [length_append]
    omega
  | skipped _ _ ih =>
    rw [length_append]
    omega

theorem Reads.ended (ended : token.kind = .endOfFile) :
    scanner.rest = [] ∧ token.position = position.advanceAll text := by
  induction reads with
  | finished _ placed used => exact ⟨used, placed⟩
  | token _ inside => exact absurd ended inside
  | skipped _ _ ih => exact ⟨ih.1, ih.2.trans (Position.advanceAll_append ..).symm⟩

end

/-- A scanner between two tokens: once something has been read it knows whether the text is used up,
and before that it is in the default mode. -/
def Between (s : Scanner) : Prop :=
  s.ended = s.rest.isEmpty ∨ s.ended = false ∧ s.mode = .default

theorem start_between (text : List Char) : (start text).Between := .inr ⟨rfl, rfl⟩

theorem next_reads (s : Scanner) (between : s.Between) :
    Reads s.next.token s.next.scanner s.position s.rest s.next.errors ∧ s.next.scanner.Between := by
  unfold next
  split
  · rename_i ended
    rcases between with known | fresh
    · have used : s.rest = [] := by simpa [ended] using known.symm
      rw [used]
      exact ⟨.finished rfl rfl used, .inl known⟩
    · simp [ended] at fresh
  · rename_i going
    have ready : s.rest ≠ [] ∨ ([] : List Char) ≠ [] ∨ s.mode = .default := by
      rcases between with known | fresh
      · left
        intro used
        simp [known, used] at going
      · exact .inr (.inr fresh.2)
    obtain ⟨skips, errorsEq, reads, ended⟩ := readOn_reads s s.position [] [] rfl ready
    exact ⟨errorsEq ▸ reads, .inl ended⟩

/-- Every token takes some text, so fuel for one more token than there are characters is enough. -/
theorem scanOn_tiles (s : Scanner) (between : s.Between) (fuel : Nat) (enough : s.rest.length < fuel) :
    Tiles s.position s.rest (s.scanOn fuel).tokens (s.scanOn fuel).errors := by
  induction fuel generalizing s with
  | zero => omega
  | succ fuel ih =>
    obtain ⟨reads, later⟩ := next_reads s between
    unfold scanOn
    by_cases ended : s.next.token.kind = .endOfFile
    · simp only [ended, if_true]
      exact reads.tiles_of_endOfFile ended
    · simp only [ended, if_false]
      have shorter := reads.rest_length ended
      exact reads.tiles ended (ih s.next.scanner later (by omega))

theorem scanOn_kind_ne (s : Scanner) (fuel : Nat) :
    ∀ token ∈ (s.scanOn fuel).tokens, token.kind ≠ .endOfFile := by
  induction fuel generalizing s with
  | zero => simp [scanOn]
  | succ fuel ih =>
    unfold scanOn
    by_cases ended : s.next.token.kind = .endOfFile
    · simp [ended]
    · simp only [ended, if_false]
      exact forall_mem_cons.mpr ⟨ended, ih _⟩

end Scanner

theorem scan_kind_ne (text : List Char) : ∀ token ∈ (scan text).tokens, token.kind ≠ .endOfFile :=
  Scanner.scanOn_kind_ne _ _

/-- A stretch of a text: a token, or what was skipped because of an error. -/
structure Segment where
  text : List Char
  position : Position
  token : Option Token

namespace Segment

/-- The token of a segment, if it has one, tells its text and place. -/
def Agrees (segment : Segment) : Prop :=
  ∀ token, segment.token = some token →
    token.text = String.ofList segment.text ∧ token.position = segment.position

/-- The segments stand one behind the other from a place on. -/
def Consecutive (position : Position) : List Segment → Prop
  | [] => True
  | segment :: rest =>
    segment.position = position ∧ Consecutive (position.advanceAll segment.text) rest

theorem Consecutive.position_eq {position : Position} {before after : List Segment}
    {segment : Segment} (consecutive : Consecutive position (before ++ segment :: after)) :
    segment.position = position.advanceAll (before.flatMap (·.text)) := by
  induction before generalizing position with
  | nil => exact consecutive.1
  | cons first rest ih =>
    rw [ih consecutive.2, flatMap_cons, Position.advanceAll_append]

end Segment

variable {position : Position} {tokens : List Token} {errors : List Position}

theorem Tiles.segments (tiles : Tiles position text tokens errors) :
    ∃ segments : List Segment, segments.flatMap (·.text) = text ∧
      (∀ segment ∈ segments, segment.text ≠ [] ∧ segment.Agrees) ∧
      segments.filterMap (·.token) = tokens ∧
      (segments.filter (·.token.isNone)).map (·.position) = errors ∧
      Segment.Consecutive position segments := by
  induction tiles with
  | done => exact ⟨[], by simp [Segment.Consecutive]⟩
  | @token position text rest token tokens errors nonempty textEq placed _ ih =>
    obtain ⟨segments, whole, each, tokensEq, errorsEq, consecutive⟩ := ih
    refine ⟨⟨text, position, some token⟩ :: segments, ?_, forall_mem_cons.mpr ⟨⟨nonempty, ?_⟩, each⟩, ?_, ?_,
      rfl, consecutive⟩
    · simp [whole]
    · rintro _ ⟨⟩
      exact ⟨textEq, placed⟩
    · simp [tokensEq]
    · simp [errorsEq]
  | @skipped position text rest tokens errors nonempty _ ih =>
    obtain ⟨segments, whole, each, tokensEq, errorsEq, consecutive⟩ := ih
    refine ⟨⟨text, position, none⟩ :: segments, ?_, forall_mem_cons.mpr ⟨⟨nonempty, nofun⟩, each⟩, ?_, ?_,
      rfl, consecutive⟩
    · simp [whole]
    · simp [tokensEq]
    · simp [errorsEq]

theorem Tiles.text_of_no_errors (tiles : Tiles position text tokens errors) (clean : errors = []) :
    tokens.flatMap (·.text.toList) = text := by
  induction tiles with
  | done => rfl
  | token _ textEq _ _ ih => simp [textEq, ih clean]
  | skipped => simp at clean

theorem scan_tiles (content : List Char) :
    Tiles .start content (scan content).tokens (scan content).errors :=
  Scanner.scanOn_tiles (.start content) (Scanner.start_between content) _ (Nat.lt_succ_self _)

/-- The tokens of a text and the stretches that errors skip, one for each error, lie in it one behind
the other, leave nothing out, and each is reported at the line and column of its first character. -/
theorem scan_segments (content : List Char) :
    ∃ segments : List Segment,
      segments.flatMap (·.text) = content ∧
      (∀ segment ∈ segments, segment.text ≠ [] ∧ segment.Agrees) ∧
      segments.filterMap (·.token) = (scan content).tokens ∧
      (segments.filter (·.token.isNone)).map (·.position) = (scan content).errors ∧
      (∀ before segment after, segments = before ++ segment :: after →
        segment.position = .behind (before.flatMap (·.text))) ∧
      ((scan content).errors = [] → (scan content).tokens.flatMap (·.text.toList) = content) := by
  obtain ⟨segments, whole, each, tokensEq, errorsEq, consecutive⟩ := (scan_tiles content).segments
  refine ⟨segments, whole, each, tokensEq, errorsEq, ?_, (scan_tiles content).text_of_no_errors⟩
  rintro before segment after rfl
  rw [consecutive.position_eq, Position.start_advanceAll]

end GrammarLint.Lexical
