import GrammarLint.Proofs.Linting

open List

namespace GrammarLint

open Json (Value)
open Text (Loose)

def Range.numbers (range : Range) : List Int :=
  [range.startLine, range.startColumn, range.endLine, range.endColumn]

/-- No number that is written of a rule has too many digits: neither the places in it nor what is counted. -/
structure Rule.Writable (r : Rule) : Prop where
  lines : r.Countable
  places : ∀ range, some range ∈ r.ranges → ∀ n ∈ range.numbers, Check.isWritable n = true
  sizes : ∀ n ∈ [r.alternatives.length, Check.nestingDepth Check.parentheses r, Check.elementCount r],
    Check.isWritable n = true

/-- A grammar with one parser rule, which has neither alternatives nor more than one line. -/
def Grammar.probe : Grammar :=
  ⟨"G.g4", .combined, "G", some ⟨1, 1, 1, 1⟩, [⟨"r", false, false, none, some ⟨1, 1, 1, 1⟩, []⟩]⟩

theorem Grammar.probe_writable : ∀ r ∈ probe.rules, r.Writable := by
  intro r mem
  cases mem_singleton.mp mem
  refine ⟨?_, ?_, by decide +kernel⟩
  · rintro range ⟨⟩
    decide +kernel
  · intro range inside
    cases mem_singleton.mp inside
    decide +kernel

namespace Check

variable {config : RuleConfig} {issues : List Issue} {check : Check} {needs : List Need}

theorem isNaming_of_entryRules {r : Rule} {rules entries : List Rule} {mainRules : Value}
    (found : entryRules (r :: rules) mainRules = .ok entries) : isNaming mainRules = true := by
  unfold entryRules at found
  split at found
  · rename_i true_
    obtain ⟨_, each, -⟩ := bind_ok found
    obtain ⟨named, one, -⟩ := bind_ok each
    exact (isNamedBy_ok_iff true_).mp ⟨named, one⟩
  · cases mainRules <;> simp_all [isNaming]

theorem meets_of_endOfFile (on : config.enabled.truthy = true)
    (ran : endOfFile.run .probe config = .ok issues) : config.meets .mainRules = true := by
  have skipped : (!config.enabled.truthy || Grammar.probe.kind == .lexer ||
      Grammar.probe.parserRules.isEmpty) = false := by
    rw [on]
    rfl
  simp only [endOfFile, skipped, Bool.false_eq_true, if_false] at ran
  obtain ⟨mainRules, threshold, ran⟩ := bind_ok ran
  obtain ⟨entries, found, -⟩ := bind_ok ran
  exact RuleConfig.meets_iff.mpr ⟨mainRules, threshold, isNaming_of_entryRules found⟩

theorem meets_of_complexity (ran : complexity.run .probe config = .ok issues) :
    config.meets (.shownLimit "maxAlternatives" 10) = true ∧
    config.meets (.shownLimit "maxNestingDepth" 5) = true ∧
    config.meets (.shownLimit "maxTokens" 50) = true := by
  obtain ⟨maxAlternatives, first, ran⟩ := bind_ok ran
  obtain ⟨maxDepth, second, ran⟩ := bind_ok ran
  obtain ⟨maxTokens, third, ran⟩ := bind_ok ran
  obtain ⟨_, one⟩ := each_of_filterMapM ran _ mem_cons_self
  obtain ⟨found, compared, -⟩ := bind_ok one
  have numbers := excesses_ok_iff.mp ⟨found, compared⟩
  simp only [forall_mem_cons] at numbers
  exact ⟨RuleConfig.meets_iff.mpr ⟨_, first, numbers.1⟩,
    RuleConfig.meets_iff.mpr ⟨_, second, numbers.2.1⟩,
    RuleConfig.meets_iff.mpr ⟨_, third, numbers.2.2.1⟩⟩

theorem meets_of_deepNesting (ran : deepNesting.run .probe config = .ok issues) :
    config.meets (.limit "maxNestingDepth" 4) = true := by
  obtain ⟨maxDepth, threshold, ran⟩ := bind_ok ran
  obtain ⟨_, one⟩ := each_of_filterMapM ran _ mem_cons_self
  obtain ⟨above, compared, -⟩ := bind_ok one
  exact RuleConfig.meets_iff.mpr ⟨maxDepth, threshold, (exceeds_ok_iff _).mp ⟨above, compared⟩⟩

theorem meets_of_longRule (ran : longRule.run .probe config = .ok issues) :
    config.meets (.limit "maxLines" 30) = true := by
  obtain ⟨maxLines, threshold, ran⟩ := bind_ok ran
  obtain ⟨_, one⟩ := each_of_filterMapM ran _ mem_cons_self
  obtain ⟨above, compared, -⟩ := bind_ok one
  exact RuleConfig.meets_iff.mpr ⟨maxLines, threshold, (exceeds_ok_iff _).mp ⟨above, compared⟩⟩

/-- One rule is enough for a check to come upon all thresholds that it reads. -/
theorem meets_of_run_probe (mem : (check, needs) ∈ limited)
    (on : config.enabled.truthy = true) (ran : check.run .probe config = .ok issues) :
    ∀ need ∈ needs, config.meets need = true := by
  simp only [limited, mem_cons, Prod.mk.injEq, not_mem_nil, or_false] at mem
  rcases mem with ⟨rfl, rfl⟩ | ⟨rfl, rfl⟩ | ⟨rfl, rfl⟩ | ⟨rfl, rfl⟩
  · simpa using meets_of_endOfFile on ran
  · simpa using meets_of_complexity ran
  · simpa using meets_of_deepNesting ran
  · simpa using meets_of_longRule ran

/-- A check that reads thresholds runs to its end where they are as it needs them. -/
theorem limited_ok (mem : (check, needs) ∈ limited) (meets : ∀ need ∈ needs, config.meets need = true)
    {g : Grammar} (writable : ∀ r ∈ g.rules, r.Writable) : ∃ issues, check.run g config = .ok issues := by
  simp only [limited, mem_cons, Prod.mk.injEq, not_mem_nil, or_false] at mem
  rcases mem with ⟨rfl, rfl⟩ | ⟨rfl, rfl⟩ | ⟨rfl, rfl⟩ | ⟨rfl, rfl⟩
  · exact endOfFile_ok (by simpa using meets) g
  · simp only [forall_mem_cons] at meets
    obtain ⟨_, first, alternatives⟩ := RuleConfig.meets_iff.mp meets.1
    obtain ⟨_, second, depth⟩ := RuleConfig.meets_iff.mp meets.2.1
    obtain ⟨_, third, tokens⟩ := RuleConfig.meets_iff.mp meets.2.2.1
    refine complexity_ok first second third fun r inside => ?_
    have few := (writable r inside).sizes
    simp only [forall_mem_cons] at few
    exact ⟨fits_of_zero alternatives few.1, fits_of_zero depth few.2.1, fits_of_zero tokens few.2.2.1⟩
  · exact deepNesting_ok (by simpa using meets) g
  · exact longRule_ok (by simpa using meets) fun r inside => (writable r inside).lines

theorem mem_all_of_limited (mem : (check, needs) ∈ limited) :
    check ∈ all := by
  simp only [limited, mem_cons, Prod.mk.injEq, not_mem_nil, or_false] at mem
  rcases mem with ⟨rfl, rfl⟩ | ⟨rfl, rfl⟩ | ⟨rfl, rfl⟩ | ⟨rfl, rfl⟩ <;> simp [all]

end Check

namespace Config

/-- Whatever check is on finds the thresholds that it reads as it needs them. -/
def usable (config : Config) : Bool :=
  Check.limited.all fun (check, needs) =>
    (config.enabled? check.id).all fun rule => needs.all rule.meets

theorem usable_iff {config : Config} : config.usable = true ↔
    ∀ entry ∈ Check.limited, ∀ rule, config.enabled? entry.1.id = some rule →
      ∀ need ∈ entry.2, rule.meets need = true := by
  rw [usable, all_eq_true]
  refine forall₂_congr fun ⟨check, needs⟩ _ => ?_
  simp only
  cases config.enabled? check.id with
  | none => simp
  | some rule =>
    rw [Option.all_some, all_eq_true]
    exact ⟨fun each _ same => Option.some.inj same ▸ each, fun each => each rule rfl⟩

def withThresholds (thresholds : Value) (config : Config) : Config :=
  { config with rules := config.rules.map fun (id, rule) => (id, { rule with thresholds }) }

theorem withThresholds_problems (thresholds : Value) (config : Config) :
    (config.withThresholds thresholds).problems = config.problems := by
  have ids : (config.withThresholds thresholds).rules.map (·.1) = config.rules.map (·.1) := by
    simp [withThresholds]
  rw [problems, ids]
  rfl

end Config

namespace Linter

variable {config : Config}

theorem run_ok_of_usable (usable : config.usable = true) {g : Grammar}
    (writable : ∀ r ∈ g.rules, r.Writable) : ∃ issues, run { config := config } g = .ok issues := by
  have each : ∀ check ∈ Check.all, ∃ issues, runCheck config g check = .ok issues := by
    intro check mem
    unfold runCheck
    split
    · rename_i rule enabled
      rcases Check.mem_limited_or_ok mem with ⟨needs, isLimited⟩ | free
      · exact Check.limited_ok isLimited (Config.usable_iff.mp usable _ isLimited rule enabled) writable
      · exact free g rule
    · exact ⟨[], rfl⟩
  obtain ⟨found, ran⟩ := mapM_ok each
  exact ⟨_, by rw [run, ran]; rfl⟩

theorem usable_of_run_probe {issues : List Issue} (ran : run { config := config } .probe = .ok issues) :
    config.usable = true := by
  refine Config.usable_iff.mpr fun entry mem rule enabled => ?_
  obtain ⟨found, each, -⟩ := bind_ok ran
  obtain ⟨block, -, own⟩ := of_mapM_eq_ok each
  have one := own entry.1 (Check.mem_all_of_limited mem)
  rw [runCheck, enabled] at one
  have on := (Option.filter_eq_some_iff.mp enabled).2
  exact Check.meets_of_run_probe mem on one

/-- Checking runs to its end on all grammars just where the thresholds are of use to the checks that
are on, and then no text is taken for one that cannot be parsed. Validation does not look at
thresholds at all. -/
theorem run_ok_iff_usable (config : Config) :
    ((∀ g : Grammar, (∀ r ∈ g.rules, r.Writable) →
      ∃ issues, run { config := config } g = .ok issues) ↔ config.usable = true) ∧
    (config.usable = true → ∀ (path : String) (text : List Char),
      (∀ r ∈ (Grammar.ofText path text).rules, r.Writable) →
      ∃ issues, lintBytes { config := config } path (Text.Utf8.encode text) = .ok issues) ∧
    ∀ thresholds, (config.withThresholds thresholds).problems = config.problems := by
  refine ⟨⟨fun safe => ?_, fun usable g writable => run_ok_of_usable usable writable⟩,
    fun usable path text writable => ?_, fun thresholds => config.withThresholds_problems thresholds⟩
  · obtain ⟨issues, ran⟩ := safe .probe Grammar.probe_writable
    exact usable_of_run_probe ran
  · obtain ⟨issues, ran⟩ := run_ok_of_usable usable writable
    refine ⟨issues, ?_⟩
    simp only [lintBytes, Text.Utf8.decode_encode, ran]
    rfl

def nullThresholds : Value := .obj [("rules", .obj [("C001", .obj [("thresholds", .null)])])]

/-- Nothing is found wrong with the settings, but the check cannot read them. -/
theorem valid_config_fails : ∃ config, Config.ofValue nullThresholds = .ok config ∧
    config.problems = .ok [] ∧
    run { config := config } .probe = .error (.noAttribute "NoneType" "get") :=
  ⟨_, rfl, rfl, rfl⟩

end Linter

end GrammarLint
