import GrammarLint.Proofs.Independence

open List

namespace GrammarLint

open Text (Loose)

theorem Text.Loose.ofString_injective : Function.Injective Loose.ofString := by
  intro s t same
  have chars : s.toList.map Text.CodePoint.char = t.toList.map .char := congrArg Loose.points same
  exact String.toList_injective (map_injective_iff.mpr (fun _ _ => Text.CodePoint.char.inj) chars)

def RuleConfig.turned (on : Bool) (rule : RuleConfig) : RuleConfig := { rule with enabled := .bool on }

theorem RuleConfig.turned_comp_turned (on before : Bool) : turned on ∘ turned before = turned on := rfl

namespace Command

theorem rule?_turn (config : Config) (id other : Loose) (on : Bool) : (turn config id on).rule? other =
    if other = id then (config.rule? other).map (.turned on) else config.rule? other :=
  Config.rule?_adjust ..

/-- Turning checks on or off one after the other brings in none that is not there. -/
theorem rule?_foldl_turn {α : Type} (config : Config) (ids : List α) (key : α → Loose) (on : Bool)
    (other : Loose) :
    (ids.foldl (fun config id => turn config (key id) on) config).rule? other =
      if other ∈ ids.map key then (config.rule? other).map (.turned on) else config.rule? other := by
  induction ids generalizing config with
  | nil => simp
  | cons id ids ih =>
    rw [foldl_cons, ih, rule?_turn]
    by_cases here : other = key id
    · by_cases again : key id ∈ ids.map key <;> simp [here, again, RuleConfig.turned_comp_turned]
    · simp [here]

theorem mem_rules_of_rule? {config : Config} {id : Loose} {rule : RuleConfig}
    (known : config.rule? id = some rule) : id ∈ config.rules.map (·.1) := by
  obtain ⟨entry, first, -⟩ := Option.map_eq_some_iff.mp known
  have key : entry.1 = id := by simpa using find?_some first
  exact mem_map.mpr ⟨entry, mem_of_find?_eq_some first, key⟩

section Selection

variable {config loaded : Config} {options : LintOptions}

/-- All that the configuration has is turned off first, so that only what is named is on. -/
theorem rule?_onlyRules {ids : List String} (named : ids ≠ []) (id : Loose) :
    (onlyRules config ids).rule? id =
      (config.rule? id).map (.turned (decide (id ∈ ids.map Loose.ofString))) := by
  have some : ids.isEmpty = false := by simpa using named
  rw [onlyRules, some, if_neg Bool.false_ne_true, rule?_foldl_turn _ ids Loose.ofString,
    rule?_foldl_turn _ config.rules Prod.fst]
  cases found : config.rule? id with
  | none => simp
  | some rule =>
    rw [if_pos (mem_rules_of_rule? found)]
    by_cases chosen : id ∈ ids.map Loose.ofString
    · simp only [if_pos chosen, decide_eq_true chosen, Option.map_map, RuleConfig.turned_comp_turned]
    · simp only [if_neg chosen, decide_eq_false chosen]

theorem addPatterns_rules {patterns : List String} (added : addPatterns loaded patterns = .ok config) :
    config.rules = loaded.rules := by
  unfold addPatterns at added
  split at added
  · cases added
    rfl
  · split at added <;> cases added
    rfl

/-- Where the options name checks, they alone say which of the checks of the configuration are on. -/
theorem rule?_configure (configured : configure loaded options = .ok config) (named : options.rules ≠ [])
    (id : Loose) : config.rule? id = (loaded.rule? id).map (.turned (decide
      (id ∈ options.rules.map Loose.ofString ∧ id ∉ options.disabled.map Loose.ofString))) := by
  obtain ⟨extended, added, same⟩ := bind_ok configured
  cases same
  have known : extended.rule? id = loaded.rule? id := by
    rw [Config.rule?, addPatterns_rules added]
    cases options.format <;> rfl
  rw [withoutRules, rule?_foldl_turn _ _ Loose.ofString, rule?_onlyRules named, known]
  by_cases off : id ∈ options.disabled.map Loose.ofString
  · simp [off, RuleConfig.turned_comp_turned]
  · simp [off]

theorem isSome_enabled?_turned (config : Config) (id : String) {on : Bool} {rule : Option RuleConfig}
    (set : config.rule? id = rule.map (.turned on)) :
    (config.enabled? id).isSome = (on && rule.isSome) := by
  rw [Config.enabled?, set]
  cases rule with
  | none => simp
  | some rule => cases on <;> rfl

/-- The checks that the options name and do not turn off. -/
def asked (options : LintOptions) : List Check :=
  Check.all.filter fun check => decide (check.id ∈ options.rules ∧ check.id ∉ options.disabled)

/-- Those of them that a configuration has. -/
def chosen (loaded : Config) (options : LintOptions) : List Check :=
  (asked options).filter fun check => (loaded.rule? check.id).isSome

theorem enabled?_configure (configured : configure loaded options = .ok config)
    (named : options.rules ≠ []) :
    Check.all.filter (fun check => (config.enabled? check.id).isSome) = chosen loaded options := by
  have same (id : String) (ids : List String) : Loose.ofString id ∈ ids.map Loose.ofString ↔ id ∈ ids :=
    mem_map_of_injective Loose.ofString_injective
  rw [chosen, asked, filter_filter]
  refine filter_congr fun check _ => ?_
  rw [isSome_enabled?_turned config check.id (rule?_configure configured named _), Bool.and_comm]
  simp [same]

end Selection

end Command

theorem mapM_flatten_filter {ε α β : Type} {items : List α} {f : α → Except ε (List β)} {p : α → Bool}
    (nothing : ∀ a ∈ items, p a = false → f a = .ok []) :
    ((items.filter p).mapM f).map flatten = (items.mapM f).map flatten := by
  induction items with
  | nil => rfl
  | cons a items ih =>
    obtain ⟨here, later⟩ := forall_mem_cons.mp nothing
    have rest := ih later
    cases kept : p a with
    | true =>
      rw [filter_cons_of_pos kept, mapM_cons, mapM_cons]
      cases f a with
      | error fault => rfl
      | ok first =>
        cases few : (items.filter p).mapM f <;> cases all : items.mapM f <;> rw [all] at rest <;>
          simp_all [Except.map, pure, Except.pure, bind, Except.bind]
    | false =>
      rw [filter_cons_of_neg (by simp [kept]), mapM_cons, here kept, rest]
      cases items.mapM f <;> rfl

namespace Linter

/-- Checks that are off take no part in a run. -/
theorem run_enabled (config : Config) (checks : List Check) (g : Grammar) : run { config, checks } g =
    run { config, checks := checks.filter fun check => (config.enabled? check.id).isSome } g := by
  have same : ∀ linter : Linter, linter.run g =
      ((linter.checks.mapM (runCheck linter.config g)).map flatten).map Issue.settle := by
    intro linter
    rw [run]
    cases linter.checks.mapM (runCheck linter.config g) <;> rfl
  rw [same, same, mapM_flatten_filter]
  intro check _ off
  have none : config.enabled? check.id = none := by simpa using off
  rw [runCheck, none]

end Linter

namespace Command

/-- Where the options name checks, those that run on a grammar are the ones that are named, not turned off
and in the configuration, whatever they are set to there. These are all that are named and not turned off
just where the configuration has them all. -/
theorem named_checks_run {loaded config : Config} {options : LintOptions}
    (configured : configure loaded options = .ok config) (named : options.rules ≠ []) :
    (∀ g, Linter.run { config } g = Linter.run { config, checks := chosen loaded options } g) ∧
    (∀ check ∈ chosen loaded options, ∃ rule, config.enabled? check.id = some rule ∧
      ∀ g, Linter.runCheck config g check = check.run g rule) ∧
    (chosen loaded options = asked options ↔
      ∀ check ∈ asked options, (loaded.rule? check.id).isSome = true) := by
  have on := enabled?_configure configured named
  refine ⟨fun g => ?_, fun check member => ?_, filter_eq_self⟩
  · rw [Linter.run_enabled, on]
  · rw [← on, mem_filter] at member
    obtain ⟨rule, set⟩ := Option.isSome_iff_exists.mp member.2
    exact ⟨rule, set, fun g => by rw [Linter.runCheck, set]⟩

/-- Options that name the check of explanations and turn off the one of ends of files. -/
def explanations : LintOptions := { files := ["a.g4"], rules := ["S001", "D001"], disabled := ["S001"] }

def bothChecks : Config := { rules := [("D001", { enabled := .null }), ("S001", { }), ("E001", { })] }

/-- A rule of three alternatives. -/
def unexplained : Grammar :=
  ⟨"a.g4", .parser, "A", some ⟨1, 1, 1, 1⟩,
    [⟨"r", false, false, none, some ⟨1, 11, 1, 16⟩, replicate 3 ⟨[], none, none⟩⟩]⟩

theorem named_checks_run_explanations : ∃ config, configure bothChecks explanations = .ok config ∧
    chosen bothChecks explanations = asked explanations ∧
    ∃ rule, config.enabled? "D001" = some rule ∧
      Linter.runCheck config unexplained Check.ruleDocumentation =
        Check.ruleDocumentation.run unexplained rule := by
  have configured : ∃ config, configure bothChecks explanations = .ok config := ⟨_, rfl⟩
  obtain ⟨config, configured⟩ := configured
  have all : ∀ check ∈ asked explanations, (bothChecks.rule? check.id).isSome = true := by decide
  obtain ⟨-, each, iff⟩ := named_checks_run configured (by simp [explanations])
  have same := iff.mpr all
  have member : Check.ruleDocumentation ∈ chosen bothChecks explanations := by
    rw [same]
    simp [asked, Check.all, Check.ruleDocumentation, explanations]
  obtain ⟨rule, on, ran⟩ := each _ member
  exact ⟨config, configured, same, rule, on, ran unexplained⟩

/-- The standard configuration does not have the check of explanations, which so does not run even where it
alone is named. -/
theorem named_check_left_out : ∃ config issue,
    configure .standard { files := ["a.g4"], rules := ["D001"] } = .ok config ∧
    (asked { files := ["a.g4"], rules := ["D001"] }).map (·.id) = ["D001"] ∧
    Linter.run { config } unexplained = .ok [] ∧
    Check.ruleDocumentation.run unexplained { } = .ok [issue] :=
  ⟨_, _, rfl, by decide, rfl, rfl⟩

end Command

end GrammarLint
