import GrammarLint.Lexical.Scanner
import Mathlib.Data.List.Basic

open List

namespace GrammarLint.Lexical

namespace Piece

def text : Piece → List Char
  | found _ text _ => text
  | skipped text _ => text

def rest : Piece → List Char
  | found _ _ rest => rest
  | skipped _ rest => rest

end Piece

variable {taken rest text piece : List Char} {effect : Effect}

/-- How a race ends: with the best text so far, or with more of the text, which one of the rules takes
or, if none has taken any, is skipped. -/
theorem race_outcome {rules : List LexicalRule} (best : Option Best) (taken text : List Char)
    {racers : List Racer} (started : ∀ racer ∈ racers, racer.rule ∈ rules) :
    (∃ b, best = some b ∧ race best taken racers text = .found b.effect b.taken.reverse b.rest) ∨
      ∃ more rest, more ++ rest = text ∧ (more = [] → text = []) ∧
        ((∃ rule ∈ rules, race best taken racers text = .found rule.effect (taken.reverse ++ more) rest) ∨
          best = none ∧ race best taken racers text = .skipped (taken.reverse ++ more) rest) := by
  induction text generalizing best taken racers with
  | nil =>
    unfold race
    split
    · rename_i racer mem
      have inRules := started racer (mem_of_find?_eq_some mem)
      exact .inr ⟨[], [], rfl, fun _ => rfl, .inl ⟨_, inRules, by rw [append_nil]; rfl⟩⟩
    · cases best with
      | none => exact .inr ⟨[], [], rfl, fun _ => rfl, .inr ⟨rfl, by simp [race.settle]⟩⟩
      | some b => exact .inl ⟨b, rfl, rfl⟩
  | cons c text ih =>
    have alive : ∀ racer ∈ (racers.map (Racer.step c)).filter Racer.isAlive, racer.rule ∈ rules := by
      intro racer mem
      obtain ⟨earlier, before, rfl⟩ := mem_map.mp (mem_filter.mp mem).1
      exact started earlier before
    unfold race
    split
    · cases best with
      | none => exact .inr ⟨[c], text, rfl, by simp, .inr ⟨rfl, by simp [race.settle]⟩⟩
      | some b => exact .inl ⟨b, rfl, rfl⟩
    · split
      · rename_i racer mem
        have inRules := alive racer (mem_of_find?_eq_some mem)
        rcases ih (some ⟨racer.effect, c :: taken, text⟩) (c :: taken) alive with
          ⟨b, same, won⟩ | ⟨more, rest, rfl, -, ⟨rule, one, won⟩ | ⟨same, -⟩⟩
        · cases same
          exact .inr ⟨[c], text, rfl, by simp, .inl ⟨_, inRules, by simpa [Racer.effect] using won⟩⟩
        · exact .inr ⟨c :: more, rest, rfl, by simp, .inl ⟨rule, one, by simpa using won⟩⟩
        · cases same
      · rcases ih best (c :: taken) alive with won | ⟨more, rest, rfl, -, ⟨rule, one, won⟩ | ⟨none, lost⟩⟩
        · exact .inl won
        · exact .inr ⟨c :: more, rest, rfl, by simp, .inl ⟨rule, one, by simpa using won⟩⟩
        · exact .inr ⟨c :: more, rest, rfl, by simp, .inr ⟨none, by simpa using lost⟩⟩

theorem mem_racers_rule (mode : Mode) {racer : Racer} (mem : racer ∈ racers mode) :
    racer.rule ∈ Vocabulary.rules mode := by
  cases mode <;>
  · obtain ⟨rule, inRules, rfl⟩ := mem_map.mp mem
    exact inRules

/-- A piece and what is behind it make up the text, and a piece that is found is recognised by a rule. -/
theorem nextPiece_outcome (mode : Mode) (text : List Char) :
    ∃ piece rest, piece ++ rest = text ∧ (piece = [] → text = []) ∧
      ((∃ rule ∈ Vocabulary.rules mode, nextPiece mode text = .found rule.effect piece rest) ∨
        nextPiece mode text = .skipped piece rest) := by
  rcases race_outcome none [] text (fun _ => mem_racers_rule mode) with
    ⟨b, none, -⟩ | ⟨piece, rest, split, used, won⟩
  · cases none
  · exact ⟨piece, rest, split, used, won.imp_right And.right⟩

theorem nextPiece_split (mode : Mode) (text : List Char) :
    (nextPiece mode text).text ++ (nextPiece mode text).rest = text ∧
      (text ≠ [] → (nextPiece mode text).text ≠ []) := by
  obtain ⟨piece, rest, split, used, ⟨rule, -, same⟩ | same⟩ := nextPiece_outcome mode text <;>
  · rw [same]
    exact ⟨split, mt used⟩

/-- What is left behind a piece of a text that is not used up is shorter. -/
theorem nextPiece_rest_length (mode : Mode) (something : text ≠ []) :
    (nextPiece mode text).rest.length < text.length := by
  obtain ⟨split, nonempty⟩ := nextPiece_split mode text
  have length := congrArg length split
  have positive := length_pos_iff.mpr (nonempty something)
  rw [length_append] at length
  omega

theorem nextPiece_effect {mode : Mode} (found : nextPiece mode text = .found effect piece rest) :
    ∃ rule ∈ Vocabulary.rules mode, rule.effect = effect := by
  obtain ⟨_, _, -, -, ⟨rule, inRules, same⟩ | same⟩ := nextPiece_outcome mode text <;> rw [found] at same
  · cases same
    exact ⟨rule, inRules, rfl⟩
  · cases same

namespace Scanner

theorem apply_frame (effect : Effect) (text : List Char) (s : Scanner) :
    (s.apply effect text).2.rest = s.rest ∧ (s.apply effect text).2.position = s.position ∧
      (s.apply effect text).2.ended = s.ended ∧ (s.apply effect text).2.scope = s.scope := by
  unfold apply enter leave
  repeat' split
  all_goals exact ⟨rfl, rfl, rfl, rfl⟩

/-- The effect makes a token that stands for the end of the file. -/
def endsFile : Effect → Bool
  | .token kind => kind == .endOfFile
  | .aside kind _ => kind == .endOfFile
  | .close kind => kind == .endOfFile
  | _ => false

theorem rules_never_endFile (mode : Mode) : ∀ rule ∈ Vocabulary.rules mode, endsFile rule.effect = false := by
  cases mode <;> decide

variable {s s' : Scanner} {begun : Position} {text piece rest : List Char} {errors : List Position}
  {effect : Effect}

theorem apply_kind_ne_endOfFile {kind : Kind} {channel : Channel} (plain : endsFile effect = false)
    (applied : s.apply effect text = (some (kind, channel), s')) : kind ≠ .endOfFile := by
  cases effect with
  | token _ | aside _ _ | close _ =>
    cases applied
    simpa [endsFile] using plain
  | name =>
    cases applied
    unfold nameKind
    split <;> simp
  | openBracket =>
    simp only [apply] at applied
    split at applied <;> cases applied
    simp
  | openNested =>
    cases applied
    simp
  | closeBracket =>
    cases applied
    split <;> simp
  | more => cases applied

/-- Where a text ends only the end of an unfinished block or set is recognised. -/
theorem nextPiece_nil (mode : Mode) :
    nextPiece mode [] = match mode with
      | .default => .skipped [] []
      | .argument => .found (.close .unterminatedArgument) [] []
      | .charSet => .found (.close .unterminatedCharSet) [] [] := by
  cases mode <;> rfl

theorem rest_ne_nil_of_apply_none (found : nextPiece s.mode s.rest = .found effect piece rest)
    (applied : (s.moveTo piece rest).apply effect text = (none, s')) : s.rest ≠ [] := by
  intro empty
  rw [empty, nextPiece_nil] at found
  cases same : s.mode <;> rw [same] at found
  · simp at found
  all_goals
    simp only [Piece.found.injEq] at found
    rw [← found.1] at applied
    simp [apply] at applied

variable {mode : Mode}

theorem skipped_split {skipped : List Char} (piece : nextPiece mode text = .skipped skipped rest) :
    skipped ++ rest = text ∧ (text ≠ [] → skipped ≠ []) := by
  have split := nextPiece_split mode text
  rwa [piece] at split

theorem found_split (found : nextPiece mode text = .found effect piece rest) :
    piece ++ rest = text ∧ (text ≠ [] → piece ≠ []) := by
  have split := nextPiece_split mode text
  rwa [found] at split

/-- Behind what is skipped less is left. -/
theorem skipped_more {skipped : List Char} (lost : nextPiece mode text = .skipped skipped rest)
    (more : rest ≠ []) : text ≠ [] ∧ rest.length < text.length := by
  have something : text ≠ [] := by
    rw [← (skipped_split lost).1]
    simp [more]
  have shorter := nextPiece_rest_length mode something
  rw [lost] at shorter
  exact ⟨something, shorter⟩

@[simp] theorem moveTo_rest (text rest : List Char) (s : Scanner) :
    (s.moveTo text rest).rest = rest := rfl

@[simp] theorem moveTo_position (text rest : List Char) (s : Scanner) :
    (s.moveTo text rest).position = s.position.advanceAll text := rfl

@[simp] theorem moveTo_ended (text rest : List Char) (s : Scanner) :
    (s.moveTo text rest).ended = rest.isEmpty := rfl

/-- Only the modes depend on what effect a piece has. -/
theorem frame_of_apply {made : Option (Kind × Channel)}
    (applied : (s.moveTo piece rest).apply effect text = (made, s')) :
    s'.rest = rest ∧ s'.position = s.position.advanceAll piece ∧ s'.ended = rest.isEmpty ∧ s'.scope = s.scope := by
  have frame := apply_frame effect text (s.moveTo piece rest)
  rwa [applied] at frame

/-- A piece that ends no token takes some text. -/
theorem rest_length_of_apply_none (found : nextPiece s.mode s.rest = .found effect piece rest)
    (applied : (s.moveTo piece rest).apply effect text = (none, s')) :
    s'.rest.length < s.rest.length := by
  have shorter := nextPiece_rest_length s.mode (rest_ne_nil_of_apply_none found applied)
  rwa [found, Piece.rest, ← (frame_of_apply applied).1] at shorter

def reframe (rest : List Char) (position : Position) (ended : Bool) (s : Scanner) : Scanner :=
  { s with rest := rest, position := position, ended := ended }

/-- Only modes and scope decide what effect a piece has. -/
theorem apply_reframe (effect : Effect) (text rest : List Char) (position : Position) (ended : Bool)
    (s : Scanner) : (s.reframe rest position ended).apply effect text =
      ((s.apply effect text).1, (s.apply effect text).2.reframe rest position ended) := by
  obtain ⟨_, _, mode, enclosing, scope, _⟩ := s
  cases effect with
  | token _ | aside _ _ | name | openNested | more => rfl
  | openBracket =>
    by_cases inRule : scope = .lexerRule
    · simp [apply, enter, reframe, inRule]
    · simp [apply, enter, reframe, inRule]
  | closeBracket | close _ => cases enclosing <;> rfl

/-- Only one effect puts tokens aside. -/
theorem apply_channel {kind : Kind} {channel : Channel}
    (applied : s.apply effect text = (some (kind, channel), s')) :
    channel = .main ∨ effect = .aside kind channel := by
  cases effect with
  | aside _ _ => cases applied; exact .inr rfl
  | token _ | name | openNested | closeBracket | close _ => cases applied; exact .inl rfl
  | openBracket =>
    simp only [apply] at applied
    split at applied <;> cases applied
    exact .inl rfl
  | more => simp [apply] at applied

/-- Reading ends where nothing is left and nothing is pending. -/
theorem readOn_nothing (lost : nextPiece s.mode s.rest = .skipped piece rest) (used : s.rest = []) :
    s.readOn begun [] errors = ⟨.endOfFile s.position, errors, { s with ended := true }⟩ := by
  have atEnd : (s.rest.isEmpty && ([] : List Char).isEmpty) = true := by simp [used]
  rw [readOn]
  simp only [lost, atEnd, if_true]

/-- What no rule takes is an error, and reading goes on behind it. -/
theorem readOn_skip (lost : nextPiece s.mode s.rest = .skipped piece rest) (more : rest ≠ []) :
    s.readOn begun text errors =
      (s.moveTo piece rest).readOn (s.moveTo piece rest).position [] (errors ++ [begun]) := by
  obtain ⟨something, shorter⟩ := skipped_more lost more
  rw [readOn]
  simp [lost, something, more, shorter]

/-- What no rule takes up to the end of the text is an error, and nothing is behind it. -/
theorem readOn_lost (lost : nextPiece s.mode s.rest = .skipped piece [])
    (something : s.rest = [] → text ≠ []) :
    s.readOn begun text errors =
      ⟨.endOfFile (s.moveTo piece []).position, errors ++ [begun], s.moveTo piece []⟩ := by
  have inside : (s.rest.isEmpty && text.isEmpty) = false := by
    rw [Bool.and_eq_false_iff]
    by_cases used : s.rest = []
    · exact .inr (by simpa using something used)
    · exact .inl (by simpa using used)
  rw [readOn]
  simp only [lost, inside, Bool.false_eq_true, if_false]
  rfl

/-- A piece that ends a token. -/
theorem readOn_token {kind : Kind} {channel : Channel}
    (found : nextPiece s.mode s.rest = .found effect piece rest)
    (applied : (s.moveTo piece rest).apply effect (text ++ piece) = (some (kind, channel), s')) :
    s.readOn begun text errors = ⟨⟨kind, String.ofList (text ++ piece), begun, channel⟩, errors,
      { s' with scope := s'.scope.after kind }⟩ := by
  rw [readOn]
  simp [found, applied]

/-- A piece behind which the token goes on. -/
theorem readOn_more (found : nextPiece s.mode s.rest = .found effect piece rest)
    (applied : (s.moveTo piece rest).apply effect (text ++ piece) = (none, s')) :
    s.readOn begun text errors = s'.readOn begun (text ++ piece) errors := by
  have shorter := rest_length_of_apply_none found applied
  rw [readOn]
  simp [found, applied, shorter]

/-- One call of the scanner, piece by piece: reading ends where the text ends, goes on behind what is
skipped and behind pieces that do not end a token, and is over with one that does. -/
theorem readOn_cases {motive : Scanner → Position → List Char → List Position → Prop}
    (nothing : ∀ {s piece rest begun errors}, nextPiece s.mode s.rest = .skipped piece rest →
      s.rest = [] → motive s begun [] errors)
    (skip : ∀ {s piece rest begun text errors}, nextPiece s.mode s.rest = .skipped piece rest →
      rest ≠ [] → motive (s.moveTo piece rest) (s.moveTo piece rest).position [] (errors ++ [begun]) →
      motive s begun text errors)
    (lost : ∀ {s piece begun text errors}, nextPiece s.mode s.rest = .skipped piece [] →
      (s.rest = [] → text ≠ []) → motive s begun text errors)
    (token : ∀ {s effect piece rest text begun errors kind channel s'},
      nextPiece s.mode s.rest = .found effect piece rest →
      (s.moveTo piece rest).apply effect (text ++ piece) = (some (kind, channel), s') →
      motive s begun text errors)
    (more : ∀ {s effect piece rest text begun errors s'},
      nextPiece s.mode s.rest = .found effect piece rest →
      (s.moveTo piece rest).apply effect (text ++ piece) = (none, s') →
      motive s' begun (text ++ piece) errors → motive s begun text errors)
    (s : Scanner) (begun : Position) (text : List Char) (errors : List Position) :
    motive s begun text errors := by
  fun_induction readOn s begun text errors with
  | case1 s begun text errors skipped rest piece atEnd =>
    obtain ⟨noRest, rfl⟩ : s.rest = [] ∧ text = [] := by simpa using atEnd
    exact nothing piece noRest
  | case2 s begun text errors skipped rest piece inside s' going ih =>
    exact skip piece (by simpa [s'] using going.1) ih
  | case3 s begun text errors skipped rest piece inside s' stopped =>
    by_cases used : rest = []
    · subst used
      refine lost piece fun noRest noText => ?_
      exact inside (by simp [noRest, noText])
    · exact absurd ⟨by simpa [s'] using used, (skipped_more piece used).2⟩ stopped
  | case4 s begun text errors effect piece rest found kind channel s' applied =>
    exact token found applied
  | case5 s begun text errors effect piece rest found s' applied shorter ih =>
    exact more found applied ih
  | case6 s begun text errors effect piece rest found s' applied longer =>
    exact absurd (rest_length_of_apply_none found applied) longer

end Scanner

end GrammarLint.Lexical
