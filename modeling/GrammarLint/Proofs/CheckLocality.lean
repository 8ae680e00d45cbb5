import Mathlib
import GrammarLint.Check.All
import GrammarLint.Proofs.Outcomes

open List

namespace GrammarLint

theorem filterMapM_append {ε α β : Type} (items others : List α) (k : α → Except ε (Option β)) :
    (items ++ others).filterMapM k = do
      let first ← items.filterMapM k
      let second ← others.filterMapM k
      return first ++ second := by
  rw [filterMapM_eq_map, filterMapM_eq_map, filterMapM_eq_map, mapM_append]
  cases items.mapM k with
  | error fault => rfl
  | ok first =>
    cases others.mapM k with
    | error fault => rfl
    | ok second => exact congrArg Except.ok filterMap_append

namespace Grammar

def withRules (g : Grammar) (rules : List Rule) : Grammar := { g with rules := rules }

variable (g : Grammar) (a b rules : List Rule)

@[simp] theorem withRules_file : (g.withRules rules).file = g.file := rfl

@[simp] theorem withRules_rules : (g.withRules rules).rules = rules := rfl

theorem parserRules_append : (g.withRules (a ++ b)).parserRules =
    (g.withRules a).parserRules ++ (g.withRules b).parserRules := filter_append ..

theorem lexerRules_append : (g.withRules (a ++ b)).lexerRules =
    (g.withRules a).lexerRules ++ (g.withRules b).lexerRules := filter_append ..

theorem parserRules_parserRules : (g.withRules g.parserRules).parserRules = g.parserRules := by
  simp [parserRules]

theorem lexerRules_lexerRules : (g.withRules g.lexerRules).lexerRules = g.lexerRules := by
  simp [lexerRules]

theorem tokenRules_tokenRules : (g.withRules g.tokenRules).tokenRules = g.tokenRules := by
  simp [tokenRules]

end Grammar

theorem Issue.of_withRules (id : String) (g : Grammar) (rules : List Rule) (config : RuleConfig)
    (range : Option Range) (message description fix : String) :
    Issue.of id (g.withRules rules) config range message description fix =
      Issue.of id g config range message description fix := rfl

namespace Check

/-- Of two lists of rules, one behind the other, the check says what it says of each of them. -/
def RuleByRule (check : Check) : Prop :=
  ∀ (g : Grammar) (a b : List Rule) (config : RuleConfig),
    check.run (g.withRules (a ++ b)) config = do
      let first ← check.run (g.withRules a) config
      let second ← check.run (g.withRules b) config
      return first ++ second

/-- Parts that read the same threshold first can read it together. -/
theorem bind_append {ε α β : Type} {x : Except ε α} {whole first second : α → Except ε (List β)}
    (each : ∀ a, whole a = do return (← first a) ++ (← second a)) :
    (x >>= whole) = do return (← x >>= first) ++ (← x >>= second) := by
  cases x with
  | error fault => rfl
  | ok a => exact each a

theorem complexity_ruleByRule : complexity.RuleByRule := fun _ a b _ =>
  bind_append fun _ => bind_append fun _ => bind_append fun _ => filterMapM_append a b _

theorem deepNesting_ruleByRule : deepNesting.RuleByRule := fun _ a b _ =>
  bind_append fun _ => filterMapM_append a b _

theorem longRule_ruleByRule : longRule.RuleByRule := fun _ a b _ =>
  bind_append fun _ => filterMapM_append a b _

/-- The checks that look at one rule at a time. -/
def perRule : List Check := [
  parserRuleName, lexerRuleName, missingLabels, duplicateLabels, complexity, deepNesting, longRule,
  backtracking, inefficientPattern, ruleDocumentation]

theorem perRule_ruleByRule {check : Check} (mem : check ∈ perRule) : check.RuleByRule := by
  simp only [perRule, mem_cons, not_mem_nil, or_false] at mem
  rcases mem with rfl | rfl | rfl | rfl | rfl | rfl | rfl | rfl | rfl | rfl
  -- All but those with thresholds go through the rules by filters and maps.
  any_goals
    intro g a b config
    simp only [parserRuleName, lexerRuleName, missingLabels, duplicateLabels, backtracking, inefficientPattern,
      ruleDocumentation, Grammar.parserRules_append, Grammar.lexerRules_append, Grammar.withRules_rules,
      filter_append, map_append, flatMap_append]
    rfl
  · exact complexity_ruleByRule
  · exact deepNesting_ruleByRule
  · exact longRule_ruleByRule

/-- What the check says depends only on the rules that are kept. -/
def Reads (kept : Grammar → List Rule) (check : Check) : Prop :=
  ∀ (g : Grammar) (config : RuleConfig), check.run (g.withRules (kept g)) config = check.run g config

def ofParserRules : List Check := [endOfFile, ruleNameStyle, labelNameStyle, errorRecovery, ambiguity]

theorem ofParserRules_reads {check : Check} (mem : check ∈ ofParserRules) :
    check.Reads Grammar.parserRules := by
  intro g config
  simp only [ofParserRules, mem_cons, not_mem_nil, or_false] at mem
  rcases mem with rfl | rfl | rfl | rfl | rfl
  all_goals
    simp only [endOfFile, ruleNameStyle, labelNameStyle, labelUses, errorRecovery, ambiguity,
      Grammar.parserRules_parserRules]
    rfl

theorem catchAll_reads : catchAll.Reads Grammar.lexerRules := by
  intro g config
  simp only [catchAll, Grammar.lexerRules_lexerRules]
  rfl

theorem sharedLiteral_reads : sharedLiteral.Reads Grammar.lexerRules := by
  intro g config
  simp only [sharedLiteral, Grammar.lexerRules_lexerRules]
  rfl

theorem overlappingTokens_reads : overlappingTokens.Reads Grammar.tokenRules := by
  intro g config
  simp only [overlappingTokens, Grammar.tokenRules_tokenRules]
  rfl

theorem unreachableToken_reads : unreachableToken.Reads Grammar.tokenRules := by
  intro g config
  simp only [unreachableToken, Grammar.tokenRules_tokenRules]
  rfl

/-- A check of single rules says of a grammar what it says of its parts, one behind the other, and
fails where it fails on the first part that it fails on. A check of the whole grammar does not see
the rules that are not its subject. -/
theorem checks_see_their_rules (g : Grammar) (config : RuleConfig) :
    (∀ check ∈ perRule, ∀ a b : List Rule, check.run (g.withRules (a ++ b)) config = do
      let first ← check.run (g.withRules a) config
      let second ← check.run (g.withRules b) config
      return first ++ second) ∧
    (∀ check ∈ ofParserRules, check.run (g.withRules g.parserRules) config = check.run g config) ∧
    (∀ check ∈ [catchAll, sharedLiteral],
      check.run (g.withRules g.lexerRules) config = check.run g config) ∧
    ∀ check ∈ [overlappingTokens, unreachableToken],
      check.run (g.withRules g.tokenRules) config = check.run g config := by
  refine ⟨fun check member a b => perRule_ruleByRule member g a b config,
    fun check member => ofParserRules_reads member g config, ?_, ?_⟩
  · simp only [forall_mem_cons, not_mem_nil, false_imp_iff, implies_true, and_true]
    exact ⟨catchAll_reads g config, sharedLiteral_reads g config⟩
  · simp only [forall_mem_cons, not_mem_nil, false_imp_iff, implies_true, and_true]
    exact ⟨overlappingTokens_reads g config, unreachableToken_reads g config⟩

/-- A parser rule with two alternatives that start alike, and a token. -/
def pairAndToken : Grammar :=
  { file := "A.g4", kind := .combined, name := "A", range := none,
    rules := [
      { name := "a", isLexer := false, isFragment := false, mode := none, range := none,
        alternatives := [⟨[⟨"B", none, none, .tokenRef⟩], none, none⟩,
          ⟨[⟨"B", none, none, .tokenRef⟩], none, none⟩] },
      { name := "B", isLexer := true, isFragment := false, mode := none, range := none,
        alternatives := [⟨[⟨"'b'", none, none, .terminal⟩], none, none⟩] }] }

theorem checks_see_their_rules_pairAndToken :
    (backtracking ∈ perRule ∧
      backtracking.run (pairAndToken.withRules (pairAndToken.parserRules ++ pairAndToken.lexerRules)) {} = do
        let first ← backtracking.run (pairAndToken.withRules pairAndToken.parserRules) {}
        let second ← backtracking.run (pairAndToken.withRules pairAndToken.lexerRules) {}
        return first ++ second) ∧
    ambiguity ∈ ofParserRules ∧
      ambiguity.run (pairAndToken.withRules pairAndToken.parserRules) {} = ambiguity.run pairAndToken {} := by
  have parts := checks_see_their_rules pairAndToken {}
  have perRule : backtracking ∈ perRule := by simp [perRule]
  have whole : ambiguity ∈ ofParserRules := by simp [ofParserRules]
  exact ⟨⟨perRule, parts.1 _ perRule _ _⟩, whole, parts.2.1 _ whole⟩

end Check

end GrammarLint
