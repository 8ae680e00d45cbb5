import GrammarLint.Proofs.Linting
import GrammarLint.Proofs.PieceBreaks
import GrammarLint.Proofs.Relocation

open List

namespace GrammarLint

namespace Lexical

open Vocabulary

namespace Token

def crlf (token : Token) : Token := { token with text := String.ofList (Lexical.crlf token.text.toList) }

/-- The number of line feeds in a blank or a comment, and none for tokens of the main channel. -/
def asideBreaks (token : Token) : Nat :=
  if token.channel = .main then 0 else token.text.toList.count '\n'

theorem asideBreaks_of_main {token : Token} (main : token.channel = .main) : token.asideBreaks = 0 :=
  if_pos main

theorem asideBreaks_le (token : Token) : token.asideBreaks ≤ token.text.toList.count '\n' := by
  unfold asideBreaks
  split
  · exact Nat.zero_le _
  · exact le_refl _

theorem crlf_endOfFile (position : Position) : (endOfFile position).crlf = endOfFile position := by
  have plain : '\n' ∉ "<EOF>".toList := by decide
  simp only [crlf, endOfFile, crlf_eq_self plain, String.ofList_toList]

end Token

namespace Scanner

def crlf (s : Scanner) : Scanner := { s with rest := Lexical.crlf s.rest }

def Reading.crlf (reading : Reading) : Reading :=
  ⟨reading.token.crlf, reading.errors, reading.scanner.crlf⟩

theorem isEmpty_crlf (text : List Char) : (Lexical.crlf text).isEmpty = text.isEmpty := by
  cases text with
  | nil => rfl
  | cons c text =>
    have some_ := crlf_ne_nil (cons_ne_nil c text)
    simpa using some_

theorem moveTo_crlf (piece rest : List Char) (s : Scanner) :
    s.crlf.moveTo (Lexical.crlf piece) (Lexical.crlf rest) = (s.moveTo piece rest).crlf := by
  simp [moveTo, crlf, Position.advanceAll_crlf, isEmpty_crlf]

variable {effect : Effect} {text piece rest : List Char} {s s' : Scanner}

/-- What has been read of a token that goes on is inside a character set. -/
def Pending (s : Scanner) (text : List Char) : Prop := text = [] ∨ s.mode = .charSet

theorem pending_of_apply_none (found : nextPiece s.mode s.rest = .found effect piece rest)
    (applied : (s.moveTo piece rest).apply effect text = (none, s')) : s'.mode = .charSet := by
  have more : ∀ mode, ∀ r ∈ rules mode, r.effect = .more → mode = .charSet := by
    intro mode
    cases mode <;> decide
  cases effect with
  | token _ | aside _ _ | name | openNested | closeBracket | close _ => simp [apply] at applied
  | openBracket =>
    simp only [apply] at applied
    split at applied
    · cases applied
      rfl
    · simp at applied
  | more =>
    cases applied
    obtain ⟨rule, mem, same⟩ := nextPiece_effect found
    exact more s.mode rule mem same

theorem breaks_of_found (found : nextPiece s.mode s.rest = .found effect piece rest) :
    piece.count '\n' + rest.count '\n' = s.rest.count '\n' := by
  rw [← count_append, (found_split found).1]

theorem breaks_of_skipped (lost : nextPiece s.mode s.rest = .skipped piece rest) :
    piece.count '\n' + rest.count '\n' = s.rest.count '\n' := by
  rw [← count_append, (skipped_split lost).1]

theorem asideBreaks_endOfFile (position : Position) : (Token.endOfFile position).asideBreaks = 0 :=
  rfl

/-- The line feeds in a blank or comment and those behind it are all in what was left to read. -/
theorem readOn_breaks_le (s : Scanner) (begun : Position) (text : List Char) (errors : List Position)
    (pending : s.Pending text) :
    (s.readOn begun text errors).token.asideBreaks +
      (s.readOn begun text errors).scanner.rest.count '\n' ≤ s.rest.count '\n' := by
  induction s, begun, text, errors using readOn_cases with
  | nothing lost used => simp [readOn_nothing lost used, asideBreaks_endOfFile]
  | skip lost more ih =>
    have later := ih (.inl rfl)
    have split := breaks_of_skipped lost
    rw [moveTo_rest] at later
    rw [readOn_skip lost more]
    omega
  | lost lost something => simp [readOn_lost lost something, asideBreaks_endOfFile]
  | @token s effect piece rest text begun errors kind channel s' found applied =>
    have split := breaks_of_found found
    obtain ⟨rule, mem, same⟩ := nextPiece_effect found
    rw [readOn_token found applied]
    show Token.asideBreaks ⟨kind, String.ofList (text ++ piece), begun, channel⟩ +
      s'.rest.count '\n' ≤ _
    rw [(frame_of_apply applied).1]
    cases aside : effect.isAside with
    | false =>
      rw [Token.asideBreaks_of_main ((apply_channel applied).resolve_right (by rintro rfl; cases aside))]
      omega
    | true =>
      have inDefault := (asides_start s.mode rule mem (same ▸ aside)).1
      have nothing : text = [] := by
        rcases pending with nothing | inSet
        · exact nothing
        · rw [inDefault] at inSet
          cases inSet
      subst nothing
      have few := Token.asideBreaks_le ⟨kind, String.ofList piece, begun, channel⟩
      rw [String.toList_ofList] at few
      rw [nil_append]
      omega
  | more found applied ih =>
    have later := ih (.inr (pending_of_apply_none found applied))
    have split := breaks_of_found found
    rw [(frame_of_apply applied).1] at later
    rw [readOn_more found applied]
    omega

theorem crlf_of_used (used : s.rest = []) : s.crlf = s := by
  cases s
  cases used
  rfl

theorem apply_crlf {made : Option (Kind × Channel)}
    (applied : (s.moveTo piece rest).apply effect text = (made, s')) :
    (s.crlf.moveTo (Lexical.crlf piece) (Lexical.crlf rest)).apply effect text = (made, s'.crlf) := by
  obtain ⟨restEq, positionEq, endedEq, -⟩ := frame_of_apply applied
  have framed := apply_reframe effect text (Lexical.crlf rest) (s.moveTo piece rest).position
    (s.moveTo piece rest).ended (s.moveTo piece rest)
  rw [applied] at framed
  rw [moveTo_crlf]
  show _ = (made, s'.reframe (Lexical.crlf s'.rest) s'.position s'.ended)
  rw [restEq, positionEq, endedEq]
  exact framed

/-- Reading over longer line ends, where line feeds are in blanks and comments only. -/
theorem readOn_crlf (s : Scanner) (begun : Position) (text : List Char) (errors : List Position)
    (pending : s.Pending text) (plain : '\n' ∉ text)
    (calm : s.rest.count '\n' = (s.readOn begun text errors).token.asideBreaks +
      (s.readOn begun text errors).scanner.rest.count '\n') :
    s.crlf.readOn begun text errors = (s.readOn begun text errors).crlf := by
  induction s, begun, text, errors using readOn_cases with
  | @nothing s piece rest begun errors lost used =>
    have same : { s with ended := true }.crlf = { s with ended := true } := crlf_of_used used
    rw [crlf_of_used used, readOn_nothing lost used, Reading.crlf, Token.crlf_endOfFile, same]
  | @skip s piece rest begun text errors lost more ih =>
    have counts := breaks_of_skipped lost
    have few := (s.moveTo piece rest).readOn_breaks_le (s.moveTo piece rest).position []
      (errors ++ [begun]) (.inl rfl)
    rw [readOn_skip lost more] at calm ⊢
    rw [moveTo_rest] at few
    have plain' : '\n' ∉ piece := count_eq_zero.mp (by omega)
    have moved := s.moveTo_crlf piece rest
    rw [crlf_eq_self plain'] at moved
    rw [readOn_skip (nextPiece_crlf_skipped lost plain') (crlf_ne_nil more), moved]
    exact ih (.inl rfl) (by simp) (by rw [moveTo_rest]; omega)
  | @lost s piece begun text errors lost something =>
    have counts := breaks_of_skipped lost
    rw [readOn_lost lost something] at calm ⊢
    simp only [asideBreaks_endOfFile, moveTo_rest, count_nil] at calm counts
    have plain' : '\n' ∉ piece := count_eq_zero.mp (by omega)
    have moved := s.moveTo_crlf piece []
    rw [crlf_eq_self plain', crlf_nil] at moved
    have something' : s.crlf.rest = [] → text ≠ [] := by
      intro used
      refine something ?_
      by_contra more
      exact crlf_ne_nil more used
    rw [readOn_lost (nextPiece_crlf_skipped lost plain') something', Reading.crlf,
      Token.crlf_endOfFile]
    rfl
  | @token s effect piece rest text begun errors kind channel s' found applied =>
    have counts := breaks_of_found found
    rw [readOn_token found applied] at calm ⊢
    rw [(frame_of_apply applied).1] at calm
    cases aside : effect.isAside with
    | false =>
      rw [Token.asideBreaks_of_main ((apply_channel applied).resolve_right (by rintro rfl; cases aside))] at calm
      have plain' : '\n' ∉ piece := count_eq_zero.mp (by omega)
      have applied' := apply_crlf applied
      rw [crlf_eq_self plain'] at applied'
      rw [readOn_token (nextPiece_crlf found plain') applied', Reading.crlf, Token.crlf,
        String.toList_ofList, crlf_eq_self (by simp [plain, plain'])]
      rfl
    | true =>
      obtain ⟨k, beside, rfl⟩ := Effect.exists_of_isAside aside
      cases applied
      rw [readOn_token (nextPiece_crlf_aside rfl found) rfl, moveTo_crlf, Reading.crlf, Token.crlf,
        String.toList_ofList, crlf_append, crlf_eq_self plain]
      rfl
  | @more s effect piece rest text begun errors s' found applied ih =>
    have counts := breaks_of_found found
    have inSet := pending_of_apply_none found applied
    have few := s'.readOn_breaks_le begun (text ++ piece) errors (.inr inSet)
    rw [readOn_more found applied] at calm ⊢
    rw [(frame_of_apply applied).1] at few
    have plain' : '\n' ∉ piece := count_eq_zero.mp (by omega)
    have applied' := apply_crlf applied
    rw [crlf_eq_self plain'] at applied'
    rw [readOn_more (nextPiece_crlf found plain') applied']
    refine ih (.inr inSet) ?_ (by rw [(frame_of_apply applied).1]; omega)
    simp [plain, plain']

theorem next_breaks_le (s : Scanner) :
    s.next.token.asideBreaks + s.next.scanner.rest.count '\n' ≤ s.rest.count '\n' := by
  unfold next
  split
  · simp [asideBreaks_endOfFile]
  · exact readOn_breaks_le s s.position [] [] (.inl rfl)

theorem next_crlf (s : Scanner)
    (calm : s.rest.count '\n' = s.next.token.asideBreaks + s.next.scanner.rest.count '\n') :
    s.crlf.next = s.next.crlf := by
  unfold next at calm ⊢
  cases ended : s.ended with
  | true =>
    rw [show s.crlf.ended = true from ended]
    simp only [if_true, Reading.crlf, Token.crlf_endOfFile]
    rfl
  | false =>
    rw [show s.crlf.ended = false from ended]
    simp only [ended, Bool.false_eq_true, if_false] at calm ⊢
    exact readOn_crlf s s.position [] [] (.inl rfl) (by simp) calm

theorem scanOn_breaks_le (s : Scanner) (fuel : Nat) :
    ((s.scanOn fuel).tokens.map Token.asideBreaks).sum ≤ s.rest.count '\n' := by
  induction fuel generalizing s with
  | zero => simp [scanOn]
  | succ fuel ih =>
    have first := s.next_breaks_le
    have later := ih s.next.scanner
    unfold scanOn
    by_cases ended : s.next.token.kind = .endOfFile
    · simp [ended]
    · simp only [ended, if_false, map_cons, sum_cons]
      omega

/-- Scanning over longer line ends, where line feeds are in blanks and comments only. -/
theorem scanOn_crlf (s : Scanner) (fuel : Nat)
    (calm : s.rest.count '\n' = ((s.scanOn fuel).tokens.map Token.asideBreaks).sum) :
    s.crlf.scanOn fuel = ⟨(s.scanOn fuel).tokens.map Token.crlf, (s.scanOn fuel).errors,
      (s.scanOn fuel).finish⟩ := by
  induction fuel generalizing s with
  | zero => rfl
  | succ fuel ih =>
    have first := s.next_breaks_le
    have later := s.next.scanner.scanOn_breaks_le fuel
    unfold scanOn at calm ⊢
    by_cases ended : s.next.token.kind = .endOfFile
    · have kind : s.next.crlf.token.kind = .endOfFile := ended
      simp only [ended, if_true, map_nil, sum_nil] at calm ⊢
      rw [next_crlf s (by omega)]
      simp only [kind, if_true]
      rfl
    · have kind : s.next.crlf.token.kind ≠ .endOfFile := ended
      simp only [ended, if_false, map_cons, sum_cons] at calm ⊢
      rw [next_crlf s (by omega)]
      simp only [kind, if_false]
      rw [show s.next.crlf.scanner = s.next.scanner.crlf from rfl, ih s.next.scanner (by omega)]
      rfl

end Scanner

theorem Position.eq_of_advanceAll {position : Position} {u v whole : List Char} (first : u <+: whole)
    (second : v <+: whole) (same : position.advanceAll u = position.advanceAll v) : u = v := by
  have shorter : ∀ {u v : List Char}, u <+: v → position.advanceAll u = position.advanceAll v → u = v := by
    rintro u _ ⟨more, rfl⟩ same
    rw [advanceAll_append] at same
    by_cases nothing : more = []
    · rw [nothing, append_nil]
    · have before := (position.advanceAll u).precedes_advanceAll nothing
      rw [← same] at before
      exact absurd before Precedes.irrefl
  rcases prefix_or_prefix_of_prefix first second with less | more
  · exact shorter less same
  · exact (shorter more same.symm).symm

/-- Every line feed of a text that starts at a place is in a blank or a comment: such a token starts so
many characters into the text, and the line feed is less than its length behind that. -/
def FeedsAside (position : Position) (text : List Char) (tokens : List Token) : Prop :=
  ∀ i < text.length, text[i]? = some '\n' → ∃ token ∈ tokens, token.channel ≠ .main ∧
    ∃ n ≤ i, token.position = position.advanceAll (text.take n) ∧ i < n + token.text.length

section Tiling

variable {position : Position} {u rest : List Char} {tokens first : List Token}
  {errors : List Position} {token : Token} {n : Nat}

/-- A token behind a stretch of text starts as many characters into the text as its place tells. -/
theorem Tiles.start_of_mem (tiles : Tiles (position.advanceAll u) rest tokens errors)
    (mem : token ∈ tokens) (inside : n ≤ (u ++ rest).length)
    (placed : token.position = position.advanceAll ((u ++ rest).take n)) :
    ∃ m, n = u.length + m ∧ token.position = (position.advanceAll u).advanceAll (rest.take m) := by
  obtain ⟨before, after, rfl, place⟩ := tiles.position_of_mem mem
  have same : (u ++ (before ++ after)).take n = u ++ before := by
    have front : (u ++ (before ++ after)).take n <+: u ++ (before ++ after) := take_prefix ..
    refine @Position.eq_of_advanceAll position _ _ _ front ⟨after, append_assoc ..⟩ ?_
    rw [← placed, place, Position.advanceAll_append]
  have length := congrArg length same
  rw [length_take, Nat.min_eq_left inside, length_append] at length
  exact ⟨before.length, length, by rw [take_left, place]⟩

/-- Behind a stretch of text that is one token, or is skipped, the line feeds are still in blanks and
comments; and the stretch has none if it is neither. -/
theorem FeedsAside.behind (aside : FeedsAside position (u ++ rest) (first ++ tokens))
    (tiles : Tiles (position.advanceAll u) rest tokens errors)
    (placed : ∀ token ∈ first, token.position = position ∧ token.text = String.ofList u) :
    FeedsAside (position.advanceAll u) rest tokens ∧
      ((∀ token ∈ first, token.channel = .main) → '\n' ∉ u) := by
  constructor
  · intro j inside feed
    have whole : u.length + j < (u ++ rest).length := by
      rw [length_append]
      omega
    have feed' : (u ++ rest)[u.length + j]? = some '\n' := by
      rw [getElem?_append_right (by omega), Nat.add_sub_cancel_left]
      exact feed
    obtain ⟨token, mem, beside, n, before, place, upTo⟩ := aside _ whole feed'
    rcases mem_append.mp mem with inFirst | later
    · obtain ⟨start, text⟩ := placed token inFirst
      have front : (u ++ rest).take n <+: u ++ rest := take_prefix ..
      have nothing : (u ++ rest).take n = [] :=
        Position.eq_of_advanceAll front nil_prefix (place.symm.trans start)
      have length := congrArg length nothing
      rw [length_take, length_nil] at length
      rw [text, String.length_ofList] at upTo
      omega
    · obtain ⟨m, rfl, place'⟩ := tiles.start_of_mem later (by omega) place
      exact ⟨token, later, beside, m, by omega, place', by omega⟩
  · intro others mem
    obtain ⟨i, inside, feed⟩ := getElem_of_mem mem
    have whole : i < (u ++ rest).length := by
      rw [length_append]
      omega
    have feed' : (u ++ rest)[i]? = some '\n' := by
      rw [getElem?_append_left inside, getElem?_eq_getElem inside, feed]
    obtain ⟨token, mem, beside, n, before, place, upTo⟩ := aside i whole feed'
    rcases mem_append.mp mem with inFirst | later
    · exact beside (others token inFirst)
    · obtain ⟨m, rfl, -⟩ := tiles.start_of_mem later (by omega) place
      omega

/-- Tokens of the main channel have no line feeds, and those of the other tokens are all there are. -/
theorem Tiles.feeds_counted {text : List Char} (tiles : Tiles position text tokens errors)
    (aside : FeedsAside position text tokens) :
    text.count '\n' = (tokens.map Token.asideBreaks).sum ∧
      ∀ token ∈ tokens, token.channel = .main → '\n' ∉ token.text.toList := by
  induction tiles with
  | done => simp
  | @token position text rest token tokens errors nonempty textEq placed tiles ih =>
    obtain ⟨later, none⟩ := @FeedsAside.behind _ _ _ _ [token] _ aside tiles (by simp [textEq, placed])
    obtain ⟨counted, plain⟩ := ih later
    have characters : token.text.toList = text := by rw [textEq, String.toList_ofList]
    have main : token.channel = .main → '\n' ∉ text := fun main => none (by simpa using main)
    refine ⟨?_, forall_mem_cons.mpr ⟨characters ▸ main, plain⟩⟩
    have here : token.asideBreaks = text.count '\n' := by
      by_cases channel : token.channel = .main
      · rw [Token.asideBreaks_of_main channel, count_eq_zero.mpr (main channel)]
      · rw [Token.asideBreaks, if_neg channel, characters]
    rw [count_append, counted, map_cons, sum_cons, here]
  | @skipped position text rest tokens errors nonempty tiles ih =>
    obtain ⟨later, none⟩ := @FeedsAside.behind _ _ _ _ [] _ aside tiles (by simp)
    obtain ⟨counted, plain⟩ := ih later
    refine ⟨?_, plain⟩
    rw [count_append, counted, count_eq_zero.mpr (none (by simp)), Nat.zero_add]

end Tiling

/-- A text whose line feeds are all in blanks and comments. -/
def BreaksAside (text : List Char) : Prop := FeedsAside .start text (scan text).tokens

instance (text : List Char) : Decidable (BreaksAside text) :=
  inferInstanceAs (Decidable (∀ i < text.length, text[i]? = some '\n' →
    ∃ token ∈ (scan text).tokens, token.channel ≠ .main ∧ ∃ n ≤ i,
      token.position = Position.start.advanceAll (text.take n) ∧ i < n + token.text.length))

theorem scan_crlf {text : List Char} (aside : BreaksAside text) :
    scan (crlf text) = ⟨(scan text).tokens.map Token.crlf, (scan text).errors, (scan text).finish⟩ := by
  have longer := length_le_crlf text
  have fuel : (Scanner.start text).scanOn ((crlf text).length + 1) = scan text :=
    Scanner.scanOn_fuel _ (Scanner.start_between text) (Nat.lt_succ_self _) (by omega)
  have scanned := (Scanner.start text).scanOn_crlf ((crlf text).length + 1)
  rw [fuel] at scanned
  exact scanned ((scan_tiles text).feeds_counted aside).1

theorem mainTokens_crlf {text : List Char} (aside : BreaksAside text) :
    (scan (crlf text)).tokens.filter (·.channel == .main) =
      (scan text).tokens.filter (·.channel == .main) := by
  have plain := ((scan_tiles text).feeds_counted aside).2
  rw [scan_crlf aside, filter_map]
  refine (map_congr_left fun token member => ?_).trans (map_id _)
  obtain ⟨inside, main⟩ := mem_filter.mp member
  have none := plain token inside (beq_iff_eq.mp main)
  simp [Token.crlf, crlf_eq_self none]

end Lexical

namespace Linter

open Lexical (BreaksAside crlf scan)

/-- Where line feeds are in blanks and comments only, carriage returns in front of them change neither
the tokens that are parsed nor the errors between them; so the grammar, with all its ranges, and all
that is found in it are the same. -/
theorem lint_crlf {text : List Char} (aside : BreaksAside text) :
    (scan (crlf text)).tokens.filter (·.channel == .main) =
      (scan text).tokens.filter (·.channel == .main) ∧
    (scan (crlf text)).errors = (scan text).errors ∧
    (∀ category, Phrase.parse category (crlf text) = Phrase.parse category text) ∧
    (∀ file, Grammar.ofText file (crlf text) = Grammar.ofText file text) ∧
    ∀ (linter : Linter) (path : String), linter.lint path (.ok (Text.Utf8.encode (crlf text))) =
      linter.lint path (.ok (Text.Utf8.encode text)) := by
  have tokens := Lexical.mainTokens_crlf aside
  have errors : (scan (crlf text)).errors = (scan text).errors := by rw [Lexical.scan_crlf aside]
  have finish : (scan (crlf text)).finish = (scan text).finish := by rw [Lexical.scan_crlf aside]
  have parse : ∀ category, Phrase.parse category (crlf text) = Phrase.parse category text := by
    intro category
    simp [Phrase.parse, tokens, finish]
  have grammar : ∀ file, Grammar.ofText file (crlf text) = Grammar.ofText file text := by
    intro file
    rw [Grammar.ofText, Grammar.ofText, parse]
  refine ⟨tokens, errors, parse, grammar, fun linter path => ?_⟩
  simp [lint, Except.bind, lintBytes, Text.Utf8.decode_encode, grammar]

/-- Line feeds in a comment and behind the last word. -/
theorem lint_crlf_comments :
    BreaksAside "a:/*\n*/b;\n".toList ∧
      Linter.lint { } "A.g4" (.ok (Text.Utf8.encode (crlf "a:/*\n*/b;\n".toList))) =
        Linter.lint { } "A.g4" (.ok (Text.Utf8.encode "a:/*\n*/b;\n".toList)) := by
  have aside : BreaksAside "a:/*\n*/b;\n".toList := of_decide_eq_true (by cbv)
  exact ⟨aside, (lint_crlf aside).2.2.2.2 { } "A.g4"⟩

end Linter

end GrammarLint
