import GrammarLint.Proofs.Acceptance
import GrammarLint.Proofs.Encoding
import GrammarLint.Proofs.Independence
import GrammarLint.Proofs.PhraseEnds

open List

namespace GrammarLint

namespace Lexical

namespace Scanner

/-- Reads on for a number of rounds at most, each of which looks for one piece of text; there is no
other bound. -/
def readWithin : (rounds : Nat) → Scanner → Position → List Char → List Position → Option Reading
  | 0, _, _, _, _ => none
  | rounds + 1, s, begun, text, errors =>
    match nextPiece s.mode s.rest with
    | .skipped skipped rest =>
      if s.rest.isEmpty && text.isEmpty then
        some ⟨.endOfFile s.position, errors, { s with ended := true }⟩
      else
        let s' := s.moveTo skipped rest
        if s'.ended then some ⟨.endOfFile s'.position, errors ++ [begun], s'⟩
        else readWithin rounds s' s'.position [] (errors ++ [begun])
    | .found effect piece rest =>
      match (s.moveTo piece rest).apply effect (text ++ piece) with
      | (some (kind, channel), s') =>
        some ⟨⟨kind, String.ofList (text ++ piece), begun, channel⟩, errors,
          { s' with scope := s'.scope.after kind }⟩
      | (none, s') => readWithin rounds s' begun (text ++ piece) errors

variable (s : Scanner) {fuel : Nat}

/-- Every round but the last takes some text, so reading a token comes to its end. -/
theorem readWithin_eq (begun : Position) (text : List Char) (errors : List Position)
    {rounds : Nat} (enough : s.rest.length < rounds) :
    readWithin rounds s begun text errors = some (s.readOn begun text errors) := by
  induction rounds generalizing s begun text errors with
  | zero => omega
  | succ rounds ih =>
    unfold readWithin readOn
    cases piece : nextPiece s.mode s.rest with
    | skipped skipped rest =>
      simp only
      split
      · rfl
      · cases used : rest with
        | nil => simp [moveTo]
        | cons c later =>
          have shorter : rest.length < s.rest.length := by
            have something : s.rest ≠ [] := by
              rw [← (skipped_split piece).1, used]
              simp
            simpa [piece, Piece.rest] using nextPiece_rest_length s.mode something
          rw [used] at shorter
          simp only [moveTo_ended, moveTo_rest, shorter]
          exact ih _ _ _ _ (by simp only [moveTo_rest]; omega)
    | found effect taken rest =>
      simp only
      rcases applied : (s.moveTo taken rest).apply effect (text ++ taken) with ⟨_ | _, s'⟩
      · have shorter := rest_length_of_apply_none piece applied
        simp only [shorter, if_true]
        exact ih _ _ _ _ (by omega)
      · rfl

/-- Every token takes some text, so scanning comes to its end. -/
theorem scanOn_fuel (between : s.Between) {more : Nat}
    (enough : s.rest.length < fuel) (le : fuel ≤ more) : s.scanOn more = s.scanOn fuel := by
  induction fuel generalizing s more with
  | zero => omega
  | succ fuel ih =>
    obtain ⟨more, rfl⟩ : ∃ n, more = n + 1 := ⟨more - 1, by omega⟩
    obtain ⟨reads, later⟩ := next_reads s between
    unfold scanOn
    by_cases ended : s.next.token.kind = .endOfFile
    · simp [ended]
    · have shorter := reads.rest_length ended
      simp [ended, ih s.next.scanner later (by omega) (Nat.le_of_succ_le_succ le)]

theorem Reads.position_rest {token : Token} {scanner : Scanner} {position : Position}
    {text : List Char} {skips : List Position} (reads : Reads token scanner position text skips)
    (inside : token.kind ≠ .endOfFile) :
    scanner.position.advanceAll scanner.rest = position.advanceAll text := by
  induction reads with
  | finished ended => exact absurd ended inside
  | token _ _ _ _ moved => rw [moved, Position.advanceAll_append]
  | skipped _ _ ih => rw [ih, Position.advanceAll_append]

theorem scanOn_finish (between : s.Between)
    (enough : s.rest.length < fuel) : (s.scanOn fuel).finish = s.position.advanceAll s.rest := by
  induction fuel generalizing s with
  | zero => omega
  | succ fuel ih =>
    obtain ⟨reads, later⟩ := next_reads s between
    unfold scanOn
    by_cases ended : s.next.token.kind = .endOfFile
    · simp only [ended, if_true]
      exact (reads.ended ended).2
    · have shorter := reads.rest_length ended
      simp only [ended, if_false]
      rw [ih s.next.scanner later (by omega)]
      exact reads.position_rest ended

end Scanner

variable {text : List Char} {token : Token}

theorem Tiles.position_of_mem {position : Position} {tokens : List Token} {errors : List Position}
    (tiles : Tiles position text tokens errors) (mem : token ∈ tokens) :
    ∃ before after, before ++ after = text ∧ token.position = position.advanceAll before := by
  induction tiles with
  | done => simp at mem
  | @token position text rest first tokens errors _ _ placed _ ih =>
    rcases mem_cons.mp mem with rfl | later
    · exact ⟨[], _, rfl, placed⟩
    · obtain ⟨before, after, split, place⟩ := ih later
      exact ⟨text ++ before, after, by rw [append_assoc, split],
        by rw [place, Position.advanceAll_append]⟩
  | @skipped position text rest tokens errors _ _ ih =>
    obtain ⟨before, after, split, place⟩ := ih mem
    exact ⟨text ++ before, after, by rw [append_assoc, split],
      by rw [place, Position.advanceAll_append]⟩

def Position.LineOf (text : List Char) (position : Position) : Prop :=
  1 ≤ position.line ∧ position.line ≤ text.count '\n' + 1

theorem Position.behind_lineOf {before after : List Char} (split : before ++ after = text) :
    (behind before).LineOf text := by
  have count : before.count '\n' + after.count '\n' = text.count '\n' := by
    rw [← split, count_append]
  constructor <;> simp only [behind] <;> omega

/-- All tokens of a file, and its end, lie on its lines. -/
theorem scan_lineOf
    (mem : token ∈ (scan text).tokens ++ [.endOfFile (scan text).finish]) :
    token.position.LineOf text := by
  rcases mem_append.mp mem with inside | last
  · obtain ⟨before, after, split, place⟩ := (scan_tiles text).position_of_mem inside
    rw [place, Position.start_advanceAll]
    exact Position.behind_lineOf split
  · have finish : (scan text).finish = .behind text :=
      (Scanner.scanOn_finish _ (Scanner.start_between text) (Nat.lt_succ_self _)).trans
        (Position.start_advanceAll text)
    cases mem_singleton.mp last
    rw [finish]
    exact Position.behind_lineOf (append_nil text)

end Lexical

open Lexical (Scanner scan)
open Phrase (Category mainTokens parseForm depthPerToken)

/-- The rules of a text whose lines can be counted have a number of lines that can be written. -/
theorem Grammar.ofText_countable (file : String) {text : List Char}
    (countable : text.length + 1 < 10 ^ Json.mostDigits) :
    ∀ r ∈ (Grammar.ofText file text).rules, r.Countable := by
  intro r mem range same
  have among := Phrase.parseTokens_endsAmong .grammarSpec (mainTokens text)
    (.endOfFile (Lexical.scan text).finish)
  obtain ⟨first, inFirst, last, inLast, rfl⟩ :=
    Grammar.ofTree_ranges among mem (mem_cons.mpr (.inl same.symm))
  have known : ∀ token ∈ mainTokens text ++ [.endOfFile (Lexical.scan text).finish],
      token.position.LineOf text := by
    intro token inside
    refine Lexical.scan_lineOf ?_
    rcases mem_append.mp inside with main | last
    · exact mem_append_left _ (mem_filter.mp main).1
    · exact mem_append_right _ last
  have lower := known first inFirst
  have upper := known last inLast
  simp only [Lexical.Position.LineOf] at lower upper
  have lines : text.count '\n' ≤ text.length := count_le_length
  refine Check.isWritable_iff.mpr (Nat.lt_of_le_of_lt ?_ countable)
  simp only
  omega

theorem Config.enabled?_mem {config : Config} {id : String} {rule : RuleConfig}
    (enabled : config.enabled? id = some rule) : ∃ entry ∈ config.rules, entry.2 = rule := by
  obtain ⟨entry, found, same⟩ := Option.map_eq_some_iff.mp (Option.filter_eq_some_iff.mp enabled).1
  exact ⟨entry, mem_of_find?_eq_some found, same⟩

theorem Config.standard_sound : ∀ entry ∈ Config.standard.rules, entry.2.Sound := by
  intro entry mem
  simp only [Config.standard, mem_cons, not_mem_nil, or_false] at mem
  rcases mem with rfl | rfl | rfl | rfl | rfl | rfl | rfl | rfl | rfl | rfl | rfl | rfl | rfl |
    rfl | rfl | rfl | rfl
  all_goals exact ⟨_, rfl, by decide +kernel, by decide⟩

namespace Linter

variable {g : Grammar} {check : Check} {issues : List Issue} {linter : Linter} {config : Config}
  {issue : Issue}

theorem runCheck_ok (sound : ∀ entry ∈ config.rules, entry.2.Sound)
    (countable : ∀ r ∈ g.rules, r.Countable) (mem : check ∈ Check.all) :
    ∃ issues, runCheck config g check = .ok issues := by
  unfold runCheck
  split
  · rename_i rule enabled
    obtain ⟨entry, inRules, rfl⟩ := Config.enabled?_mem enabled
    exact Check.run_ok mem (sound entry inRules) countable
  · exact ⟨[], rfl⟩

theorem runCheck_reports (mem : check ∈ Check.all)
    (ran : runCheck config g check = .ok issues) (reported : issue ∈ issues) :
    issue.rule = check.id ∧ (config.enabled? check.id).isSome = true := by
  unfold runCheck at ran
  split at ran
  · rename_i rule enabled
    exact ⟨(Check.run_attributed mem ran issue reported).rule, by rw [enabled]; rfl⟩
  · cases ran
    simp at reported

theorem run_ok (known : ∀ check ∈ linter.checks, check ∈ Check.all)
    (sound : ∀ entry ∈ linter.config.rules, entry.2.Sound) (countable : ∀ r ∈ g.rules, r.Countable) :
    ∃ issues, linter.run g = .ok issues := by
  obtain ⟨found, ran⟩ := mapM_ok fun check mem =>
    runCheck_ok sound countable (known check mem)
  exact ⟨_, by rw [run, ran]; rfl⟩

/-- What a linter reports comes from checks that are on. -/
theorem run_reports (known : ∀ check ∈ linter.checks, check ∈ Check.all) (ran : linter.run g = .ok issues) (reported : issue ∈ issues) :
    ∃ check ∈ linter.checks, issue.rule = check.id ∧ (linter.config.enabled? check.id).isSome = true := by
  obtain ⟨found, each, same⟩ := bind_ok ran
  cases same
  obtain ⟨block, rfl, own⟩ := of_mapM_eq_ok each
  obtain ⟨_, inFound, inside⟩ := mem_flatten.mp (Issue.mem_settle.mp reported)
  obtain ⟨check, mem, rfl⟩ := mem_map.mp inFound
  exact ⟨check, mem, runCheck_reports (known check mem) (own check mem) inside⟩

theorem id_ne_failure (mem : check ∈ Check.all) (path message : String) :
    check.id ≠ (failure path message).rule := by
  have ids : ∀ id ∈ Check.all.map (·.id), id ≠ "PARSE_ERROR" := by decide
  exact ids check.id (mem_map_of_mem mem)

theorem lintFile_eq {w : Files.Workspace} {path : String} {text : List Char}
    (included : linter.config.excludes path = .ok false)
    (stored : readGrammar w path = .ok (Text.Utf8.encode text))
    (ran : linter.run (Grammar.ofText path text) = .ok issues) :
    linter.lintFile w path = .ok ⟨path, issues⟩ := by
  have bytes : linter.lintBytes path (Text.Utf8.encode text) = .ok issues := by
    simp only [lintBytes, Text.Utf8.decode_encode, ran]
    rfl
  rw [lintFile, lint, included, stored]
  simp only [Except.bind, bytes]
  rfl

/-- No text makes checking a file fail. Reading a token, scanning and parsing come to their end: more
rounds or a larger bound give nothing else. What is reported comes from checks that are on, and is
never that the file cannot be parsed. Limits of too many digits and places in a text that is too long
could not be written into messages. -/
theorem lintFile_never_fails {linter : Linter} {w : Files.Workspace} {path : String}
    {text : List Char} (known : ∀ check ∈ linter.checks, check ∈ Check.all)
    (sound : ∀ entry ∈ linter.config.rules, entry.2.Sound)
    (included : linter.config.excludes path = .ok false)
    (stored : readGrammar w path = .ok (Text.Utf8.encode text))
    (countable : text.length + 1 < 10 ^ Json.mostDigits) :
    (∀ (s : Scanner) (begun : Lexical.Position) (pending : List Char)
      (errors : List Lexical.Position), Scanner.readWithin (s.rest.length + 1) s begun pending errors =
        some (s.readOn begun pending errors)) ∧
    (∀ fuel, text.length < fuel → (Scanner.start text).scanOn fuel = scan text) ∧
    (∀ fuel, ((mainTokens text).length + 1) * depthPerToken ≤ fuel →
      parseForm .grammarSpec [] [] (.start (mainTokens text) (.endOfFile (scan text).finish)) fuel
          Category.grammarSpec.form =
        parseForm .grammarSpec [] [] (.start (mainTokens text) (.endOfFile (scan text).finish))
          (((mainTokens text).length + 1) * depthPerToken) Category.grammarSpec.form) ∧
    ∃ issues, linter.run (Grammar.ofText path text) = .ok issues ∧
      linter.lintFile w path = .ok ⟨path, issues⟩ ∧
      ∀ issue ∈ issues, issue.rule ≠ "PARSE_ERROR" ∧
        ∃ check ∈ linter.checks, issue.rule = check.id ∧
          (linter.config.enabled? check.id).isSome = true := by
  refine ⟨fun s begun pending errors => Scanner.readWithin_eq s begun pending errors
      (Nat.lt_succ_self _), fun fuel enough => ?_,
    fun fuel enough => Phrase.parseForm_start_fuel .grammarSpec (mainTokens text) rfl enough, ?_⟩
  · exact Scanner.scanOn_fuel _ (Scanner.start_between text) (Nat.lt_succ_self _) enough
  · obtain ⟨issues, ran⟩ := run_ok known sound (Grammar.ofText_countable path countable)
    refine ⟨issues, ran, lintFile_eq included stored ran, fun issue reported => ?_⟩
    obtain ⟨check, member, same, enabled⟩ := run_reports known ran reported
    exact ⟨same ▸ id_ne_failure (known check member) path "", check, member, same, enabled⟩

def single (name : String) (text : List Char) : Files.Workspace :=
  ⟨⟨[([name], .file (Text.Utf8.encode text))]⟩, []⟩

theorem readGrammar_single (text : List Char) :
    readGrammar (single "a.g4" text) "a.g4" = .ok (Text.Utf8.encode text) := by
  generalize same : Text.Utf8.encode text = bytes
  rw [single, same]
  cbv

/-- A file without a grammar name that breaks off within a set of characters. -/
theorem lintFile_broken_text :
    ∃ issues, Linter.lintFile { } (single "a.g4" "grammar ; ) A : [a-".toList) "a.g4" =
      .ok ⟨"a.g4", issues⟩ ∧ ∀ issue ∈ issues, issue.rule ≠ "PARSE_ERROR" := by
  have countable : "grammar ; ) A : [a-".toList.length + 1 < 10 ^ Json.mostDigits := by decide +kernel
  obtain ⟨-, -, -, issues, -, linted, reports⟩ := @lintFile_never_fails { } _ "a.g4" _
    (fun _ member => member) Config.standard_sound rfl (readGrammar_single _) countable
  exact ⟨issues, linted, fun issue reported => (reports issue reported).1⟩

/-- A limit of so many digits that it cannot be written. -/
def longLimit : Config :=
  { rules := [("C001", { thresholds := .obj [("maxAlternatives", .int (-10 ^ 5000))] })] }

/-- The number of alternatives of any rule is above the limit, but there is no message that says so. -/
theorem lintFile_longLimit :
    (Linter.lintFile { config := longLimit } (single "a.g4" "grammar a; r : X ;".toList) "a.g4").toOption.map
      (·.issues) = some [failure "a.g4" (Fault.tooLong Json.mostDigits).message.toString] := by
  decide +kernel

end Linter

end GrammarLint
