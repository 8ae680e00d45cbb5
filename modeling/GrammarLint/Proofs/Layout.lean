import GrammarLint.Proofs.CheckPlaces
import GrammarLint.Proofs.Linting

open List

namespace GrammarLint

open Lexical (Scanner Token scan)
open Phrase (mainTokens)

namespace Issue

variable {issues : List Issue} {a b : Issue}

/-- The issues but those on the length of rules, without their ranges. -/
def verdict (issues : List Issue) : List Issue :=
  (issues.filter (·.rule ≠ Check.longRule.id)).map bare

theorem verdict_eq (issues : List Issue) :
    verdict issues = (issues.map bare).filter (·.rule ≠ Check.longRule.id) := by
  rw [filter_map]
  rfl

theorem verdict_flatten (blocks : List (List Issue)) :
    verdict blocks.flatten = (blocks.map verdict).flatten := by
  simp only [verdict, filter_flatten, map_flatten, map_map]
  rfl

theorem verdict_longRule (own : ∀ issue ∈ issues, issue.rule = Check.longRule.id) :
    verdict issues = [] := by
  rw [verdict, filter_eq_nil_iff.mpr, map_nil]
  intro issue inside
  simp [own issue inside]

theorem bounds_lt : a.bounds < b.bounds ↔
    (a.range = none ∧ b.range ≠ none) ∨
      ∃ first second, a.range = some first ∧ b.range = some second ∧ first.bounds < second.bounds := by
  cases rangeA : a.range <;> cases rangeB : b.range <;> simp [bounds, Range.bounds, rangeA, rangeB]

theorem bounds_inj : a.bounds = b.bounds ↔ a.range = b.range := by
  rcases rangeA : a.range with _ | ⟨_, _, _, _⟩ <;> rcases rangeB : b.range with _ | ⟨_, _, _, _⟩ <;>
    simp [bounds, rangeA, rangeB]

theorem before_relocate {h : Range → Range} {g : Grammar} (keeps : g.KeepsOrder h)
    (inA : a.range ∈ none :: g.rules.flatMap Rule.ranges)
    (inB : b.range ∈ none :: g.rules.flatMap Rule.ranges) :
    before a b = before (a.relocate h) (b.relocate h) := by
  have equal : a.bounds = b.bounds ↔ (a.relocate h).bounds = (b.relocate h).bounds := by
    rw [bounds_inj, bounds_inj]
    exact ⟨fun same => congrArg (Option.map h) same, keeps.inj inA inB⟩
  have less : a.bounds < b.bounds ↔ (a.relocate h).bounds < (b.relocate h).bounds := by
    simp only [bounds_lt, relocate]
    cases rangeA : a.range with
    | none => cases b.range <;> simp
    | some first =>
      cases rangeB : b.range with
      | none => simp
      | some second =>
        have kept := keeps first second (by simpa [rangeA] using inA) (by simpa [rangeB] using inB)
        simp [kept]
  rw [Bool.eq_iff_iff]
  simp only [before, Bool.or_eq_true, Bool.and_eq_true, decide_eq_true_eq, beq_iff_eq, less, equal]
  rfl

end Issue

namespace Check

variable {check : Check} {h : Range → Range} {g : Grammar} {config : RuleConfig}

theorem issues_view {α : Type} (view : List Issue → α) (check : Check) (g : Grammar) (config : RuleConfig) :
    (check.issues g config).map view = (check.run g config).map fun issues => view (Issue.settle issues) := by
  unfold issues
  cases check.run g config <;> rfl

theorem endOfFile_bare (keeps : g.KeepsOrder h) :
    (endOfFile.issues (g.relocate h) config).map (map Issue.bare) =
      (endOfFile.issues g config).map (map Issue.bare) := by
  rw [issues_view, issues_view, endOfFile_relocate]
  cases ran : endOfFile.run g config with
  | error fault => rfl
  | ok issues =>
    have own := fun issue inside => (endOfFile_attributed ran issue inside).rule
    -- The check does not look at the declaration, so all it finds lies in the rules.
    have placed : ∀ issue ∈ issues, issue.range ∈ none :: g.rules.flatMap Rule.ranges := by
      have about : Attributed endOfFile.id { g with range := none } config issues :=
        endOfFile_attributed ran
      exact fun issue inside => (about issue inside).range
    have moved : ∀ issue ∈ issues.map (Issue.relocate h), issue.rule = endOfFile.id := by
      intro issue inside
      obtain ⟨before, inIssues, rfl⟩ := mem_map.mp inside
      exact own before inIssues
    have sorted : (issues.map (Issue.relocate h)).mergeSort Issue.before =
        (issues.mergeSort Issue.before).map (Issue.relocate h) := by
      symm
      refine map_mergeSort fun a inA b inB => ?_
      exact Issue.before_relocate keeps (placed a inA) (placed b inB)
    simp only [ok_map, Issue.settle_endOfFile own, Issue.settle_endOfFile moved, sorted, map_map]
    rfl

theorem longRule_verdict
    (same : outcome (longRule.run (g.relocate h) config) = outcome (longRule.run g config)) :
    (longRule.issues (g.relocate h) config).map Issue.verdict =
      (longRule.issues g config).map Issue.verdict := by
  have silent : ∀ {g : Grammar} {issues : List Issue}, longRule.run g config = .ok issues →
      Issue.verdict (Issue.settle issues) = [] := fun ran => Issue.verdict_longRule
    fun issue inside => (longRule_attributed ran issue (Issue.mem_settle.mp inside)).rule
  rw [issues_view, issues_view]
  exact map_eq_of_outcome same fun a b ran ran' => by rw [silent ran, silent ran']

theorem bare_of_finds (mem : check ∈ all) (other : check.id ≠ endOfFile.id)
    (same : check.finds (g.relocate h) config = check.finds g config) :
    (check.issues (g.relocate h) config).map (map Issue.bare) =
      (check.issues g config).map (map Issue.bare) := by
  have settled : ∀ g,
      (check.issues g config).map (map Issue.bare) = check.finds g config := by
    intro g
    rw [issues_view, finds]
    cases ran : check.run g config with
    | error fault => rfl
    | ok issues =>
      have unsettled : Issue.settle issues = issues := Issue.settle_other fun issue inside => by
        rw [(run_attributed mem ran issue inside).rule]
        exact other
      simp [unsettled]
  rw [settled, settled, same]

/-- What a check finds does not depend on where the rules are, but for the length of rules. -/
theorem bare_relocate (mem : check ∈ all) (keeps : g.KeepsOrder h) :
    check = longRule ∨ (check.issues (g.relocate h) config).map (map Issue.bare) =
      (check.issues g config).map (map Issue.bare) := by
  have finds : check.id ≠ endOfFile.id → check.finds (g.relocate h) config = check.finds g config →
      check = longRule ∨ (check.issues (g.relocate h) config).map (map Issue.bare) =
        (check.issues g config).map (map Issue.bare) := fun other same =>
    .inr (bare_of_finds mem other same)
  simp only [all, mem_cons, not_mem_nil, or_false] at mem
  rcases mem with rfl | rfl | rfl | rfl | rfl | rfl | rfl | rfl | rfl | rfl | rfl | rfl | rfl |
    rfl | rfl | rfl | rfl | rfl | rfl | rfl | rfl
  all_goals try exact finds (by decide) (by simp)
  · exact .inr (endOfFile_bare keeps)
  · exact .inl rfl
  · exact finds (by decide) (backtracking_relocate g config keeps)

theorem verdict_relocate (mem : check ∈ all) (keeps : g.KeepsOrder h)
    (countable : ∀ r ∈ g.rules, r.Countable) (countable' : ∀ r ∈ (g.relocate h).rules, r.Countable) :
    (check.issues (g.relocate h) config).map Issue.verdict =
      (check.issues g config).map Issue.verdict := by
  rcases bare_relocate mem keeps with rfl | same
  · exact longRule_verdict (longRule_relocate h g config countable countable')
  · have filtered : ∀ g, (check.issues g config).map Issue.verdict =
        ((check.issues g config).map (map Issue.bare)).map
          (filter (·.rule ≠ longRule.id)) := by
      intro g
      cases check.issues g config with
      | error fault => rfl
      | ok issues => exact congrArg Except.ok (Issue.verdict_eq issues)
    rw [filtered, filtered, same]

end Check

namespace Linter

variable {config : Config} {g : Grammar}

/-- What is seen of all issues, if it is seen check by check. -/
theorem run_view {α : Type} {view : List Issue → List α}
    (flat : ∀ blocks : List (List Issue), view blocks.flatten = (blocks.map view).flatten) :
    (run { config } g).map view =
      (Check.all.mapM fun check => (runCheck config g check).map fun issues =>
        view (Issue.settle issues)).map flatten := by
  rw [run, ← map_mapM]
  cases found : Check.all.mapM (runCheck config g) with
  | error fault => rfl
  | ok blocks =>
    obtain ⟨block, rfl, each⟩ := of_mapM_eq_ok found
    refine congrArg Except.ok ?_
    rw [settle_blocks each, flatMap_def, flat]
    rfl

/-- Grammars in which each check sees the same. -/
theorem run_view_congr {α : Type} {view view' : List Issue → List α} {g' : Grammar}
    (flat : ∀ blocks : List (List Issue), view blocks.flatten = (blocks.map view).flatten)
    (flat' : ∀ blocks : List (List Issue), view' blocks.flatten = (blocks.map view').flatten)
    (each : ∀ check ∈ Check.all, ∀ rule, (check.issues g' rule).map view' = (check.issues g rule).map view) :
    (run { config } g').map view' = (run { config } g).map view := by
  rw [run_view flat, run_view flat']
  refine congrArg (Except.map flatten) (mapM_congr fun check mem => ?_)
  unfold runCheck
  split
  · rw [← Check.issues_view, ← Check.issues_view]
    exact each check mem _
  · exact congrArg Except.ok ((flat' []).trans (flat []).symm)

/-- What the checks find does not depend on where the rules are, but for the length of rules. -/
theorem run_relocate {h : Range → Range} (keeps : g.KeepsOrder h) (countable : ∀ r ∈ g.rules, r.Countable)
    (countable' : ∀ r ∈ (g.relocate h).rules, r.Countable) :
    (run { config } (g.relocate h)).map Issue.verdict =
      (run { config } g).map Issue.verdict :=
  run_view_congr Issue.verdict_flatten Issue.verdict_flatten fun _ mem _ =>
    Check.verdict_relocate mem keeps countable countable'

end Linter

theorem Range.between_lt (a b c d : Lexical.Position) :
    (between a b).bounds < (between c d).bounds ↔ a.Precedes c ∨ a = c ∧ b.Precedes d := by
  cases a
  cases c
  simp only [bounds_lt, between, Lexical.Position.Precedes, Lexical.Position.mk.injEq]
  omega

section Texts

variable {text other : List Char}

theorem mainTokens_sorted (text : List Char) :
    ((mainTokens text ++ [Token.endOfFile (scan text).finish]).map (·.position)).Pairwise
      Lexical.Position.Precedes := by
  have finish : (scan text).finish = Lexical.Position.start.advanceAll text :=
    Scanner.scanOn_finish _ (Scanner.start_between text) (Nat.lt_succ_self _)
  have sorted := (Lexical.scan_tiles text).precedes.2
  rw [← finish] at sorted
  rw [map_append]
  exact sorted.sublist ((filter_sublist.map _).append_right _)

def words (text : List Char) : List (Lexical.Kind × String) :=
  (mainTokens text).map fun token => (token.kind, token.text)

theorem Grammar.ofText_among {file : String} {range : Range}
    (inside : some range ∈ (Grammar.ofText file text).rules.flatMap Rule.ranges) :
    range.Among (mainTokens text ++ [Token.endOfFile (scan text).finish]) := by
  obtain ⟨r, mem, inRule⟩ := mem_flatMap.mp inside
  exact Grammar.ofTree_ranges (Phrase.parseTokens_endsAmong ..) mem inRule

/-- The ranges in a grammar keep their order where the tokens keep theirs. -/
theorem Grammar.ofText_keepsOrder (file : String) {f : Lexical.Position → Lexical.Position}
    (keeps : ∀ a ∈ mainTokens text ++ [Token.endOfFile (scan text).finish],
      ∀ b ∈ mainTokens text ++ [Token.endOfFile (scan text).finish],
        a.position.Precedes b.position → (f a.position).Precedes (f b.position)) :
    (Grammar.ofText file text).KeepsOrder (Range.relocate f) := by
  intro a b inA inB
  obtain ⟨start, inStart, stop, inStop, rfl⟩ := Grammar.ofText_among inA
  obtain ⟨start', inStart', stop', inStop', rfl⟩ := Grammar.ofText_among inB
  obtain ⟨first, meet⟩ := Lexical.precedes_iff keeps inStart inStart'
  obtain ⟨last, -⟩ := Lexical.precedes_iff keeps inStop inStop'
  have before := Range.between_lt start.position stop.position start'.position stop'.position
  have behind := Range.between_lt (f start.position) (f stop.position) (f start'.position)
    (f stop'.position)
  rw [first, meet, last, ← before, ← Range.relocate_between, ← Range.relocate_between] at behind
  exact behind

/-- Texts with the same words, but for what is made of their texts, are parsed alike. -/
theorem parse_change (retext : Lexical.Kind → String → String)
    (missing : ∀ kind : Lexical.Kind, retext kind ("<missing " ++ kind.spelling ++ ">") =
      "<missing " ++ kind.spelling ++ ">")
    (ending : retext .endOfFile "<EOF>" = "<EOF>")
    (same : words other = (words text).map fun word => (word.1, retext word.1 word.2)) :
    ∃ f : Lexical.Position → Lexical.Position,
      (Phrase.parse .grammarSpec other).tree =
        (Phrase.parse .grammarSpec text).tree.change ⟨f, retext, 0, [], missing⟩ ∧
      ∀ a ∈ mainTokens text ++ [Token.endOfFile (scan text).finish],
        ∀ b ∈ mainTokens text ++ [Token.endOfFile (scan text).finish],
          a.position.Precedes b.position → (f a.position).Precedes (f b.position) := by
  have onMain : ∀ text, ∀ token ∈ mainTokens text, token.channel = .main := fun text token mem => by
    simpa using (mem_filter.mp mem).2
  have alike : (mainTokens other ++ [Token.endOfFile (scan other).finish]).map
      (fun token => (token.kind, token.text, token.channel)) =
      (mainTokens text ++ [Token.endOfFile (scan text).finish]).map
        fun token => (token.kind, retext token.kind token.text, token.channel) := by
    have words : ∀ text, ((mainTokens text).map fun token => (token.kind, token.text, token.channel)) =
        (words text).map fun word => (word.1, word.2, Lexical.Channel.main) := by
      intro text
      rw [words, map_map]
      refine map_congr_left fun token mem => ?_
      simp [onMain text token mem]
    rw [map_append, map_append, words other, same, GrammarLint.words, map_map, map_map]
    refine congr (congrArg _ (map_congr_left fun token mem => ?_)) ?_
    · simp [onMain text token mem]
    · simp [Token.endOfFile, ending]
  obtain ⟨f, moved, keeps⟩ := Lexical.exists_relocation (mainTokens_sorted text)
    (mainTokens_sorted other) alike
  refine ⟨f, ?_, keeps⟩
  rw [map_append] at moved
  obtain ⟨tokens, finish⟩ := append_inj' moved rfl
  have tokens : mainTokens other = (mainTokens text).map (Token.change ⟨f, retext, 0, [], missing⟩) := tokens
  have finish : Token.endOfFile (scan other).finish =
      (Token.endOfFile (scan text).finish).change ⟨f, retext, 0, [], missing⟩ := singleton_inj.mp finish
  have parsed := Phrase.parseTokens_change ⟨f, retext, 0, [], missing⟩ rfl rfl .grammarSpec
    (mainTokens text) (.endOfFile (scan text).finish)
  rwa [← tokens, ← finish] at parsed

/-- Texts with the same words have the same grammar, but for where its rules are. -/
theorem Grammar.ofText_relocate (same : words text = words other) :
    ∃ h : Range → Range, ∀ file, Grammar.ofText file other = (Grammar.ofText file text).relocate h ∧
      (Grammar.ofText file text).KeepsOrder h := by
  have words : words other = (words text).map fun word => (word.1, word.2) := by
    rw [← same]
    exact (map_id' _).symm
  obtain ⟨f, tree, keeps⟩ := parse_change (fun _ text => text) (fun _ => rfl) rfl words
  refine ⟨.relocate f, fun file => ⟨?_, Grammar.ofText_keepsOrder file keeps⟩⟩
  rw [Grammar.ofText, tree]
  exact Grammar.ofTree_change (Phrase.Change.move_keepsTexts f) _ file

end Texts

namespace Linter

/-- What is found in a file, but for the length of rules and for where it is found. -/
def verdict (result : LintResult) : String × List Issue := (result.file, Issue.verdict result.issues)

/-- What is seen of the issues of a file; where a check fails, that is the only one. -/
def seen {β : Type} (view : List Issue → β) (path : String) : Except Fault β → β
  | .ok found => found
  | .error fault => view [failure path fault.message.toString]

theorem lint_view {β : Type} (view : List Issue → β) {config : Config} {path : String}
    {bytes : List UInt8} {text : List Char} (decoded : Text.Utf8.decode bytes = .ok text) :
    (lint { config } path (.ok bytes)).map (fun result => (result.file, view result.issues)) =
      (config.excludes path).map fun excluded =>
        if excluded then (path, view [])
        else (path, seen view path ((run { config } (Grammar.ofText path text)).map view)) := by
  rw [lint]
  rcases config.excludes path with fault | excluded
  · rfl
  · cases excluded with
    | true => rfl
    | false =>
      simp only [ok_bind, Except.bind, lintBytes, decoded]
      cases run { config } (Grammar.ofText path text) <;> rfl

theorem lint_verdict {config : Config} {path : String} {bytes : List UInt8} {text : List Char}
    (decoded : Text.Utf8.decode bytes = .ok text) :
    (lint { config } path (.ok bytes)).map verdict =
      (config.excludes path).map fun excluded =>
        if excluded then (path, [])
        else (path, seen Issue.verdict path
          ((run { config } (Grammar.ofText path text)).map Issue.verdict)) :=
  lint_view Issue.verdict decoded

/-- Only its words decide what is found in a text: blanks and comments between them change no more than
where it is found and which rules are too long. Only places in a text that is too long could not be
written. -/
theorem lint_same_words {config : Config} {path : String} {bytes others : List UInt8}
    {text other : List Char} (decoded : Text.Utf8.decode bytes = .ok text)
    (decoded' : Text.Utf8.decode others = .ok other) (same : words text = words other)
    (countable : text.length + 1 < 10 ^ Json.mostDigits)
    (countable' : other.length + 1 < 10 ^ Json.mostDigits) :
    (Linter.lint { config } path (.ok bytes)).map verdict =
      (Linter.lint { config } path (.ok others)).map verdict := by
  obtain ⟨h, moved⟩ := Grammar.ofText_relocate same
  obtain ⟨grammar, keeps⟩ := moved path
  have few := Grammar.ofText_countable path countable
  have few' := Grammar.ofText_countable path countable'
  rw [grammar] at few'
  rw [lint_verdict decoded, lint_verdict decoded', grammar, run_relocate keeps few few']

/-- A grammar in as little room as it needs, and the same with blanks and comments. -/
theorem lint_same_words_commented :
    words "a:b|b;".toList = words "a :\n b // c\n | b ;".toList ∧
    (Linter.lint { } "A.g4" (.ok (Text.Utf8.encode "a:b|b;".toList))).map verdict =
      (Linter.lint { } "A.g4" (.ok (Text.Utf8.encode "a :\n b // c\n | b ;".toList))).map
        verdict := by
  have same : words "a:b|b;".toList = words "a :\n b // c\n | b ;".toList := by cbv
  exact ⟨same, lint_same_words (Text.Utf8.decode_encode _) (Text.Utf8.decode_encode _) same
    (by decide +kernel) (by decide +kernel)⟩

end Linter

end GrammarLint
