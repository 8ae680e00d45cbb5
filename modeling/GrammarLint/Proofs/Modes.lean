import GrammarLint.Lexical.Session
import GrammarLint.Proofs.Pieces

open List

namespace GrammarLint.Lexical

open Vocabulary

def argumentKinds : List Kind :=
  [.beginArgument, .argumentContent, .endArgument, .unterminatedArgument]

/-- What a token does to the number of argument brackets that are open. -/
inductive Turn : Nat → Token → Nat → Prop
  | plain {token : Token} : token.kind ∉ argumentKinds → Turn 0 token 0
  | opening {token : Token} : token.kind = .beginArgument → token.text = "[" → Turn 0 token 1
  | nested {token : Token} {depth : Nat} : token.kind = .argumentContent → token.text = "[" →
      Turn (depth + 1) token (depth + 2)
  | content {token : Token} {depth : Nat} : token.kind = .argumentContent → token.text ≠ "[" →
      token.text ≠ "]" → Turn (depth + 1) token (depth + 1)
  | unnested {token : Token} {depth : Nat} : token.kind = .argumentContent → token.text = "]" →
      Turn (depth + 2) token (depth + 1)
  | ending {token : Token} : token.kind = .endArgument → token.text = "]" → Turn 1 token 0

namespace Scanner

def modes (s : Scanner) : List Mode := s.mode :: s.enclosing

def Within (depth : Nat) (s : Scanner) : Prop :=
  s.modes = replicate depth .argument ++ [.default]

def InCharSet (s : Scanner) : Prop := s.modes = [.charSet, .default]

variable {s : Scanner} {depth : Nat} {text piece rest : List Char} {effect : Effect}

theorem Within.outside (within : s.Within 0) :
    s.mode = .default ∧ s.enclosing = [] := by
  simpa [Within, modes] using within

theorem Within.inside (within : s.Within (depth + 1)) :
    s.mode = .argument ∧ s.enclosing = replicate depth .argument ++ [.default] := by
  simpa [Within, modes, replicate_succ] using within

theorem InCharSet.parts (inSet : s.InCharSet) : s.mode = .charSet ∧ s.enclosing = [.default] := by
  simpa [InCharSet, modes] using inSet

theorem Within.enter {s : Scanner} {depth : Nat} (within : s.Within depth) :
    (s.enter .argument).Within (depth + 1) :=
  congrArg (Mode.argument :: ·) within

theorem modes_leave {mode : Mode} {modes : List Mode} (within : s.modes = mode :: modes)
    (some_ : modes ≠ []) : s.leave.modes = modes := by
  obtain ⟨outer, rest, rfl⟩ := exists_cons_of_ne_nil some_
  obtain ⟨-, enclosing⟩ : s.mode = mode ∧ s.enclosing = outer :: rest := by
    simpa [modes] using within
  simp only [leave, enclosing]
  rfl

theorem Within.leave (within : s.Within (depth + 1)) : s.leave.Within depth :=
  modes_leave within (by simp)

theorem InCharSet.leave (inSet : s.InCharSet) : s.leave.Within 0 :=
  modes_leave inSet (by simp)

/-- Where a scanner can be on its way to the end of a token of which it has read `text`. -/
inductive Poised : Nat → List Char → Scanner → Prop
  | outside {s : Scanner} : s.Within 0 → Poised 0 [] s
  | argument {depth : Nat} {s : Scanner} : s.Within (depth + 1) → s.rest ≠ [] →
      Poised (depth + 1) [] s
  | charSet {text : List Char} {s : Scanner} : s.InCharSet → text ≠ [] → Poised 0 text s

/-- What comes of a piece: the end of a token, or more of it. -/
inductive Ends (depth : Nat) (text : List Char) : Option (Kind × Channel) × Scanner → Prop
  | token {kind : Kind} {channel : Channel} {s : Scanner} {later : Nat} :
      (∀ begun, Turn depth ⟨kind, String.ofList text, begun, channel⟩ later) → s.Within later →
      (kind = .unterminatedCharSet → s.rest = []) → Ends depth text (some (kind, channel), s)
  | more {s : Scanner} : Poised depth text s → Ends depth text (none, s)

/-- What the rules outside of argument blocks and character sets do: a plain token, or an opening
bracket. -/
def isPlain : Effect → Bool
  | .token kind | .aside kind _ => !argumentKinds.contains kind && kind != .unterminatedCharSet
  | .name => true
  | _ => false

theorem default_effect (found : nextPiece .default text = .found effect piece rest) :
    isPlain effect = true ∨ effect = .openBracket := by
  have each : ∀ rule ∈ rules .default, isPlain rule.effect = true ∨ rule.effect = .openBracket := by
    decide
  obtain ⟨rule, mem, rfl⟩ := nextPiece_effect found
  exact each rule mem

theorem argument_effect (something : text ≠ [])
    (found : nextPiece .argument text = .found effect piece rest) :
    effect = .openNested ∨ effect = .closeBracket ∨ effect = .token .argumentContent := by
  have each : ∀ rule ∈ rules .argument, (rule.effect = .openNested ∨ rule.effect = .closeBracket ∨
      rule.effect = .token .argumentContent) ∨ rule.effect = .close .unterminatedArgument := by
    decide
  obtain ⟨rule, mem, rfl⟩ := nextPiece_effect found
  rcases each rule mem with inside | atEnd
  · exact inside
  · rw [atEnd] at found
    exact absurd (close_atEnd found (by decide)) something

theorem charSet_effect (found : nextPiece .charSet text = .found effect piece rest) :
    effect = .more ∨ effect = .close .lexerCharSet ∨ effect = .close .unterminatedCharSet := by
  have each : ∀ rule ∈ rules .charSet, rule.effect = .more ∨ rule.effect = .close .lexerCharSet ∨
      rule.effect = .close .unterminatedCharSet := by
    decide
  obtain ⟨rule, mem, rfl⟩ := nextPiece_effect found
  exact each rule mem

theorem apply_plain (plain : isPlain effect = true) (within : s.Within 0) (text : List Char) :
    Ends 0 text (s.apply effect text) := by
  cases effect with
  | token kind | aside kind channel =>
    simp only [isPlain, Bool.and_eq_true, Bool.not_eq_true', bne_iff_ne, ne_eq] at plain
    exact .token (fun _ => .plain (by simpa using plain.1)) within fun same => absurd same plain.2
  | name =>
    have names : ∀ kind ∈ [Kind.tokenRef, .ruleRef],
        kind ∉ argumentKinds ∧ kind ≠ .unterminatedCharSet := by decide
    have name : nameKind text ∈ [Kind.tokenRef, .ruleRef] := by
      unfold nameKind
      split <;> simp
    exact .token (fun _ => .plain (names _ name).1) within fun same => absurd same (names _ name).2
  | openBracket | openNested | closeBracket | more | close _ => simp [isPlain] at plain

section Found

variable {s : Scanner} {depth : Nat} {text piece rest : List Char} {effect : Effect}

theorem found_outside (within : s.Within 0) (found : nextPiece s.mode s.rest = .found effect piece rest) :
    Ends 0 piece ((s.moveTo piece rest).apply effect piece) := by
  have moved : (s.moveTo piece rest).Within 0 := within
  rw [within.outside.1] at found
  rcases default_effect found with plain | rfl
  · exact apply_plain plain moved piece
  · obtain rfl := openBracket_piece found
    unfold apply
    simp only
    split
    · exact .more (.charSet (congrArg (Mode.charSet :: ·) moved) (by simp))
    · exact .token (fun _ => .opening rfl rfl) moved.enter (by simp)

theorem found_argument (within : s.Within (depth + 1)) (something : s.rest ≠ [])
    (found : nextPiece s.mode s.rest = .found effect piece rest) :
    Ends (depth + 1) piece ((s.moveTo piece rest).apply effect piece) := by
  have moved : (s.moveTo piece rest).Within (depth + 1) := within
  rw [within.inside.1] at found
  rcases argument_effect something found with rfl | rfl | rfl
  · obtain rfl := openNested_piece found
    exact .token (fun _ => .nested rfl rfl) moved.enter (by simp)
  · obtain rfl := closeBracket_piece found
    have outer := moved.leave
    cases depth with
    | zero =>
      have last : (s.moveTo [']'] rest).leave.enclosing.isEmpty = true := by
        simp [outer.outside.2]
      simp only [apply, last, if_true]
      exact .token (fun _ => .ending rfl rfl) outer (by simp)
    | succ depth =>
      have more : (s.moveTo [']'] rest).leave.enclosing.isEmpty = false := by
        simp [outer.inside.2]
      simp only [apply, more, Bool.false_eq_true, if_false]
      exact .token (fun _ => .unnested rfl rfl) outer (by simp)
  · obtain ⟨notOpen, notClose⟩ := content_piece found
    have apart : ∀ {c : Char}, piece ≠ [c] → String.ofList piece ≠ String.ofList [c] :=
      fun differ same => differ (String.ofList_injective same)
    exact .token (fun _ => .content rfl (apart notOpen) (apart notClose)) moved (by simp)

theorem found_charSet (inSet : s.InCharSet) (some_ : text ≠ [])
    (found : nextPiece s.mode s.rest = .found effect piece rest) :
    Ends 0 (text ++ piece) ((s.moveTo piece rest).apply effect (text ++ piece)) := by
  have moved : (s.moveTo piece rest).InCharSet := inSet
  have plain : ∀ kind ∈ [Kind.lexerCharSet, .unterminatedCharSet], kind ∉ argumentKinds := by decide
  rw [inSet.parts.1] at found
  rcases charSet_effect found with rfl | rfl | rfl
  · exact .more (.charSet moved (by simp [some_]))
  · exact .token (fun _ => .plain (plain _ (by simp))) moved.leave (by simp)
  · have atEnd := close_atEnd found (by decide)
    have used : rest = [] := (append_eq_nil_iff.mp ((found_split found).1.trans atEnd)).2
    have left := (apply_frame (.close .unterminatedCharSet) (text ++ piece) (s.moveTo piece rest)).1
    exact .token (fun _ => .plain (plain _ (by simp))) moved.leave fun _ => left.trans used

/-- A piece ends a token that turns the number of open brackets as it should, or goes on with one. -/
theorem Poised.found (poised : Poised depth text s)
    (found : nextPiece s.mode s.rest = .found effect piece rest) :
    Ends depth (text ++ piece) ((s.moveTo piece rest).apply effect (text ++ piece)) := by
  cases poised with
  | outside within => exact found_outside within found
  | argument within something => exact found_argument within something found
  | charSet inSet some_ => exact found_charSet inSet some_ found

/-- Nothing is skipped inside of argument blocks, and in a character set only the end of the text. -/
theorem Poised.skipped {skipped : List Char} (poised : Poised depth text s)
    (lost : nextPiece s.mode s.rest = .skipped skipped rest) :
    depth = 0 ∧ (s.Within 0 ∨ s.InCharSet ∧ text ≠ [] ∧ rest = []) := by
  cases poised with
  | outside within => exact ⟨rfl, .inl within⟩
  | argument within something =>
    rw [within.inside.1] at lost
    exact (argument_not_skipped something lost).elim
  | charSet inSet some_ =>
    rw [inSet.parts.1] at lost
    exact ⟨rfl, .inr ⟨inSet, some_, charSet_skipped lost⟩⟩

end Found

/-- What one call of the scanner gives inside a number of brackets: a token that turns this number, or
the end of the file, which may leave the scanner in an unfinished character set. -/
inductive Comes (depth : Nat) (r : Reading) : Prop
  | token {later : Nat} : Turn depth r.token later → r.scanner.Within later →
      (r.token.kind = .unterminatedCharSet → r.scanner.rest = []) → Comes depth r
  | finished : r.token.kind = .endOfFile → r.scanner.Within depth → Comes depth r
  | broken : r.token.kind = .endOfFile → r.scanner.InCharSet → Comes depth r

theorem readOn_comes (s : Scanner) (begun : Position) (text : List Char) (errors : List Position)
    (poised : Poised depth text s) : Comes depth (s.readOn begun text errors) := by
  induction s, begun, text, errors using readOn_cases with
  | nothing lost used =>
    rw [readOn_nothing lost used]
    obtain ⟨rfl, within | ⟨-, some_, -⟩⟩ := poised.skipped lost
    · exact .finished rfl within
    · exact absurd rfl some_
  | skip lost more ih =>
    rw [readOn_skip lost more]
    obtain ⟨rfl, within | ⟨-, -, used⟩⟩ := poised.skipped lost
    · exact ih (.outside within)
    · exact absurd used more
  | lost lost something =>
    rw [readOn_lost lost something]
    obtain ⟨rfl, within | ⟨inSet, -, -⟩⟩ := poised.skipped lost
    · exact .finished rfl within
    · exact .broken rfl inSet
  | token found applied =>
    rw [readOn_token found applied]
    have ends := poised.found found
    rw [applied] at ends
    cases ends with
    | token turn within last => exact .token (turn _) within last
  | more found applied ih =>
    rw [readOn_more found applied]
    have ends := poised.found found
    rw [applied] at ends
    cases ends with
    | more poised => exact ih poised

theorem Within.poised (within : s.Within depth) (between : s.Between) (going : s.ended = false) :
    Poised depth [] s := by
  cases depth with
  | zero => exact .outside within
  | succ depth =>
    refine .argument within fun used => ?_
    rcases between with known | ⟨-, outside⟩
    · simp [known, used] at going
    · simp [within.inside.1] at outside

theorem Within.next (within : s.Within depth) (between : s.Between) :
    Comes depth s.next := by
  unfold Scanner.next
  split
  · exact .finished rfl within
  · rename_i going
    exact readOn_comes s s.position [] [] (within.poised between (by simpa using going))

/-- Between two requests the scanner is inside some number of brackets, unless the text has ended
within a character set. -/
structure Settled (s : Scanner) : Prop where
  between : s.Between
  modes : (∃ depth, s.Within depth) ∨ s.InCharSet ∧ s.ended = true

theorem start_within (content : List Char) : (start content).Within 0 := rfl

theorem start_settled (content : List Char) : (start content).Settled :=
  ⟨start_between content, .inl ⟨0, start_within content⟩⟩

theorem Within.not_inCharSet (within : s.Within depth) : ¬ s.InCharSet := by
  intro inSet
  have mode := inSet.parts.1
  cases depth with
  | zero => simp [within.outside.1] at mode
  | succ depth => simp [within.inside.1] at mode

theorem Settled.next (settled : s.Settled) :
    s.next.scanner.Settled ∧ (s.next.scanner.InCharSet → s.next.token.kind = .endOfFile) := by
  obtain ⟨between, ⟨depth, within⟩ | ⟨inSet, ended⟩⟩ := settled
  · obtain ⟨reads, later⟩ := next_reads s between
    cases within.next between with
    | token turn within last =>
      exact ⟨⟨later, .inl ⟨_, within⟩⟩, fun inSet => absurd inSet within.not_inCharSet⟩
    | finished eof within => exact ⟨⟨later, .inl ⟨_, within⟩⟩, fun _ => eof⟩
    | broken eof inSet =>
      refine ⟨⟨later, .inr ⟨inSet, ?_⟩⟩, fun _ => eof⟩
      rcases later with known | ⟨-, outside⟩
      · rw [known, (reads.ended eof).1]
        rfl
      · simp [inSet.parts.1] at outside
  · have same : s.next = ⟨.endOfFile s.position, [], s⟩ := by rw [Scanner.next, if_pos ended]
    rw [same]
    exact ⟨⟨between, .inr ⟨inSet, ended⟩⟩, fun _ => rfl⟩

section Strict

/-- Returns to the enclosing mode, which there has to be. -/
def leave? (s : Scanner) : Option Scanner :=
  match s.enclosing with
  | mode :: modes => some { s with mode := mode, enclosing := modes }
  | [] => none

/-- As `apply`, but it fails where there is no mode to return to. -/
def applied? (effect : Effect) (text : List Char) (s : Scanner) :
    Option (Option (Kind × Channel) × Scanner) :=
  match effect with
  | .closeBracket => s.leave?.map fun outer =>
    (some (if outer.enclosing.isEmpty then .endArgument else .argumentContent, .main), outer)
  | .close kind => s.leave?.map fun outer => (some (kind, .main), outer)
  | _ => some (s.apply effect text)

/-- As `readOn`, but it fails where there is no mode to return to. -/
def readOn? (s : Scanner) (begun : Position) (text : List Char) (errors : List Position) :
    Option Reading :=
  match nextPiece s.mode s.rest with
  | .skipped skipped rest =>
    if s.rest.isEmpty && text.isEmpty then
      some ⟨.endOfFile s.position, errors, { s with ended := true }⟩
    else
      let s' := s.moveTo skipped rest
      if !s'.ended ∧ s'.rest.length < s.rest.length then
        readOn? s' s'.position [] (errors ++ [begun])
      else some ⟨.endOfFile s'.position, errors ++ [begun], s'⟩
  | .found effect piece rest =>
    match (s.moveTo piece rest).applied? effect (text ++ piece) with
    | none => none
    | some (some (kind, channel), s') =>
      some ⟨⟨kind, String.ofList (text ++ piece), begun, channel⟩, errors,
        { s' with scope := s'.scope.after kind }⟩
    | some (none, s') =>
      if s'.rest.length < s.rest.length then readOn? s' begun (text ++ piece) errors
      else some ⟨.endOfFile s'.position, errors, s'⟩
termination_by s.rest.length
decreasing_by
  · exact (‹_ ∧ _›).2
  · assumption

def next? (s : Scanner) : Option Reading :=
  if s.ended then some ⟨.endOfFile s.position, [], s⟩ else s.readOn? s.position [] []

def answer? (content : List Char) (s : Scanner) : Request → Option Answer
  | .next => s.next?.map fun reading => ⟨some reading.token, reading.errors, reading.scanner⟩
  | .reset => some ⟨none, [], s.reset content⟩

/-- As `answers`, but no request may return to a mode where there is none. -/
def answers? (content : List Char) (s : Scanner) : List Request → Option (List Answer)
  | [] => some []
  | request :: later => do
    let first ← s.answer? content request
    return first :: (← answers? content first.scanner later)

variable {s : Scanner}

theorem applied?_of_enclosed (enclosed : s.enclosing ≠ []) (effect : Effect) (text : List Char) :
    s.applied? effect text = some (s.apply effect text) := by
  obtain ⟨mode, modes, same⟩ := exists_cons_of_ne_nil enclosed
  have left : s.leave? = some s.leave := by simp [leave?, leave, same]
  cases effect with
  | closeBracket | close _ => simp [applied?, apply, left]
  | token _ | aside _ _ | name | openBracket | openNested | more => rfl

/-- A piece returns to a mode only where there is one. -/
theorem Poised.applied? {depth : Nat} {text piece rest : List Char} {effect : Effect}
    (poised : Poised depth text s) (found : nextPiece s.mode s.rest = .found effect piece rest)
    (whole : List Char) :
    (s.moveTo piece rest).applied? effect whole = some ((s.moveTo piece rest).apply effect whole) := by
  cases poised with
  | outside within =>
    rw [within.outside.1] at found
    rcases default_effect found with plain | rfl
    · cases effect with
      | closeBracket | close _ => simp [isPlain] at plain
      | token _ | aside _ _ | name | openBracket | openNested | more => rfl
    · rfl
  | argument within something =>
    exact applied?_of_enclosed (by simp [moveTo, within.inside.2]) effect whole
  | charSet inSet some_ => exact applied?_of_enclosed (by simp [moveTo, inSet.parts.2]) effect whole

theorem readOn?_eq {depth : Nat} (s : Scanner) (begun : Position) (text : List Char)
    (errors : List Position) (poised : Poised depth text s) :
    s.readOn? begun text errors = some (s.readOn begun text errors) := by
  induction s, begun, text, errors using readOn_cases with
  | nothing lost used =>
    rw [readOn_nothing lost used, readOn?, lost]
    simp [used]
  | skip lost more ih =>
    obtain ⟨something, shorter⟩ := skipped_more lost more
    rw [readOn_skip lost more, readOn?, lost]
    obtain ⟨rfl, within | ⟨-, -, used⟩⟩ := poised.skipped lost
    · simpa [something, more, shorter] using ih (.outside within)
    · exact absurd used more
  | lost lost something =>
    rw [readOn_lost lost something, readOn?, lost]
    simpa using something
  | token found applied =>
    rw [readOn_token found applied, readOn?, found]
    simp [poised.applied? found, applied]
  | more found applied ih =>
    have ends := poised.found found
    rw [applied] at ends
    cases ends with
    | more poised' =>
      rw [readOn_more found applied, readOn?, found]
      simp only [poised.applied? found, applied, rest_length_of_apply_none found applied, if_true]
      exact ih poised'

theorem Settled.next? (settled : s.Settled) : s.next? = some s.next := by
  unfold Scanner.next? Scanner.next
  split
  · rfl
  · rename_i going
    obtain ⟨between, ⟨depth, within⟩ | ⟨-, ended⟩⟩ := settled
    · exact readOn?_eq _ _ _ _ (within.poised between (by simpa using going))
    · exact absurd ended going

end Strict

section Sessions

variable {content : List Char} {s : Scanner}

theorem Settled.answer (settled : s.Settled) (request : Request) :
    s.answer? content request = some (s.answer content request) ∧
      (s.answer content request).scanner.Settled ∧
      ((s.answer content request).scanner.InCharSet →
        ∃ token, (s.answer content request).token = some token ∧ token.kind = .endOfFile) := by
  cases request with
  | next =>
    obtain ⟨later, broken⟩ := settled.next
    refine ⟨?_, later, fun inSet => ⟨_, rfl, broken inSet⟩⟩
    rw [answer?, settled.next?]
    rfl
  | reset =>
    exact ⟨rfl, start_settled content, fun inSet =>
      absurd inSet (start_within content).not_inCharSet⟩

theorem Settled.answers? (settled : s.Settled) (requests : List Request) :
    s.answers? content requests = some (s.answers content requests) := by
  induction requests generalizing s with
  | nil => rfl
  | cons request later ih =>
    obtain ⟨first, settled, -⟩ := settled.answer request
    rw [answers?, first]
    simp [ih settled, answers]

theorem Settled.answers (settled : s.Settled) {requests : List Request} {answer : Answer}
    (mem : answer ∈ s.answers content requests) :
    answer.scanner.Settled ∧ (answer.scanner.InCharSet →
      ∃ token, answer.token = some token ∧ token.kind = .endOfFile) := by
  induction requests generalizing s with
  | nil => simp [answers] at mem
  | cons request later ih =>
    obtain ⟨-, first⟩ := Settled.answer settled request
    rcases mem_cons.mp mem with rfl | inLater
    · exact first
    · exact ih first.1 inLater

theorem answers_append (s : Scanner) (requests later : List Request) :
    ∃ s' : Scanner, s.answers content (requests ++ later) =
      s.answers content requests ++ s'.answers content later := by
  induction requests generalizing s with
  | nil => exact ⟨s, rfl⟩
  | cons request requests ih =>
    obtain ⟨s', same⟩ := ih (s.answer content request).scanner
    exact ⟨s', by simp [answers, same]⟩

theorem Settled.modes_cases (settled : s.Settled) :
    (s.mode = .default ↔ s.enclosing = []) ∧
    (s.mode = .argument → ∃ depth, s.enclosing.reverse = .default :: replicate depth .argument) ∧
    (s.mode = .charSet → s.InCharSet) := by
  obtain ⟨-, ⟨_ | depth, within⟩ | ⟨inSet, -⟩⟩ := settled
  · simp [within.outside]
  · simp [within.inside]
  · refine ⟨?_, ?_, fun _ => inSet⟩ <;> simp [inSet.parts]

/-- Whatever is asked of a scanner, it never returns from the outermost mode. After each request it is
in the default mode exactly when it is in no other, in an argument block only within argument
blocks, and in a character set only where the text has ended in one. A scanner that starts again
answers as a new one. -/
theorem answers_modes (content : List Char) (requests : List Request) :
    (start content).answers? content requests = some ((start content).answers content requests) ∧
    (∀ answer ∈ (start content).answers content requests,
      (answer.scanner.mode = .default ↔ answer.scanner.enclosing = []) ∧
      (answer.scanner.mode = .argument →
        ∃ depth, answer.scanner.enclosing.reverse = .default :: List.replicate depth .argument) ∧
      (answer.scanner.mode = .charSet → answer.scanner.enclosing = [.default] ∧
        ∃ token, answer.token = some token ∧ token.kind = .endOfFile)) ∧
    ∀ later, (start content).answers content (requests ++ .reset :: later) =
      (start content).answers content requests ++
        ⟨none, [], start content⟩ :: (start content).answers content later := by
  refine ⟨(start_settled content).answers? requests, fun answer member => ?_, fun later => ?_⟩
  · obtain ⟨settled, broken⟩ := (start_settled content).answers member
    obtain ⟨outside, argument, charSet⟩ := settled.modes_cases
    exact ⟨outside, argument, fun mode => ⟨(charSet mode).parts.2, broken (charSet mode)⟩⟩
  · obtain ⟨s, same⟩ := answers_append (start content) requests (.reset :: later)
    exact same

end Sessions

end Scanner

end GrammarLint.Lexical
