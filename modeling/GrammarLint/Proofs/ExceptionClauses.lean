import GrammarLint.Proofs.RangeNesting

open List

namespace GrammarLint

open Phrase

namespace Phrase.Tree

/-- A parser rule has a clause that catches exceptions, or one that is run at the end in any case. -/
def handlesExceptions (spec : Tree) : Bool :=
  !(spec.descend [.exceptionGroup, .exceptionHandler]).isEmpty ||
    !(spec.descend [.exceptionGroup, .finallyClause]).isEmpty

mutual
/-- A tree without the clauses for exceptions in it. -/
def dropClauses : Tree → Tree
  | .phrase cat start stop children =>
    .phrase cat start stop (if cat = .exceptionGroup then [] else dropClausesOf children)
  | .leaf token => .leaf token
  | .error token => .error token

def dropClausesOf : List Tree → List Tree
  | [] => []
  | tree :: rest => tree.dropClauses :: dropClausesOf rest
end

theorem dropClausesOf_eq_map (trees : List Tree) : dropClausesOf trees = trees.map dropClauses := by
  induction trees with
  | nil => rfl
  | cons tree rest ih => rw [dropClausesOf, ih, map_cons]

@[simp] theorem dropClauses_category? (tree : Tree) : tree.dropClauses.category? = tree.category? := by
  cases tree <;> simp [dropClauses, category?]

@[simp] theorem dropClauses_token? (tree : Tree) : tree.dropClauses.token? = tree.token? := by
  cases tree <;> simp [dropClauses, token?]

@[simp] theorem dropClauses_range (tree : Tree) : tree.dropClauses.range = tree.range := by
  cases tree <;> simp [dropClauses, range]

section Parts

variable {tree : Tree} (outside : tree.category? ≠ some .exceptionGroup)

include outside

theorem dropClauses_children :
    tree.dropClauses.children = tree.children.map dropClauses := by
  cases tree with
  | phrase cat start stop children =>
    have other : cat ≠ .exceptionGroup := fun same => outside (congrArg some same)
    rw [dropClauses, if_neg other, dropClausesOf_eq_map]
    rfl
  | leaf _ | error _ => simp [dropClauses, children]

theorem dropClauses_phrases (cat : Category) :
    tree.dropClauses.phrases cat = (tree.phrases cat).map dropClauses := by
  rw [phrases, dropClauses_children outside, filter_map]
  simp only [Function.comp_def, dropClauses_category?]
  rfl

theorem dropClauses_phrase? (cat : Category) :
    tree.dropClauses.phrase? cat = (tree.phrase? cat).map dropClauses := by
  rw [phrase?, dropClauses_phrases outside, head?_map]
  rfl

theorem dropClauses_tokensOfKind (kind : Lexical.Kind) :
    tree.dropClauses.tokensOfKind kind = tree.tokensOfKind kind := by
  rw [tokensOfKind, dropClauses_children outside, filterMap_map]
  simp only [Function.comp_def, dropClauses_token?]
  rfl

theorem handlesExceptions_dropClauses :
    tree.dropClauses.handlesExceptions = false := by
  have emptied : ∀ group ∈ tree.phrases .exceptionGroup, group.dropClauses.children = [] := by
    intro group mem
    have isGroup := beq_iff_eq.mp (mem_filter.mp mem).2
    cases group with
    | phrase cat _ _ _ =>
      cases isGroup
      rfl
    | leaf _ | error _ => cases isGroup
  have nothing (cat : Category) : tree.dropClauses.descend [.exceptionGroup, cat] = [] := by
    rw [descend, dropClauses_phrases outside, flatMap_map, flatMap_eq_nil_iff]
    intro group mem
    simp [descend, phrases, emptied group mem]
  simp [handlesExceptions, nothing]

end Parts

mutual
theorem ruleSpecs_dropClauses {mode : Option String} {spec : Option String × Tree} : (tree : Tree) →
    spec ∈ tree.dropClauses.ruleSpecs mode → ∃ whole : Tree, spec.2 = whole.dropClauses
  | .phrase cat start stop children, mem => by
    rw [dropClauses, ruleSpecs] at mem
    rcases mem_append.mp mem with here | inside
    · refine ⟨.phrase cat start stop children, ?_⟩
      rw [mem_singleton.mp (mem_ite_nil_right.mp here).2, dropClauses]
    · split at inside
      · cases inside
      · exact ruleSpecsOf_dropClausesOf children inside
  | .leaf _, mem | .error _, mem => nomatch mem

theorem ruleSpecsOf_dropClausesOf {mode : Option String} {spec : Option String × Tree} : (trees : List Tree) →
    spec ∈ ruleSpecsOf mode (dropClausesOf trees) → ∃ whole : Tree, spec.2 = whole.dropClauses
  | [], mem => nomatch mem
  | tree :: rest, mem => by
    rw [dropClausesOf, ruleSpecsOf] at mem
    rcases mem_append.mp mem with first | later
    · exact ruleSpecs_dropClauses tree first
    · exact ruleSpecsOf_dropClausesOf rest later
end

/-- No clause is left in any parser rule. -/
theorem parserSpecs_dropClauses (tree : Tree) :
    ∀ spec ∈ tree.dropClauses.parserSpecs, spec.handlesExceptions = false := by
  intro spec mem
  obtain ⟨inTree, parserRule⟩ := mem_filter.mp mem
  obtain ⟨inMode, isSpec, rfl⟩ := mem_map.mp inTree
  obtain ⟨whole, same⟩ := ruleSpecs_dropClauses tree isSpec
  rw [same, beq_iff_eq, dropClauses_category?] at parserRule
  rw [same]
  exact handlesExceptions_dropClauses (by simp [parserRule])

end Phrase.Tree

namespace Phrase

section Clauseless

variable {tree : Tree} {cat : Category}

def clauselessCategories : List Category :=
  Category.all.filter (· ∉ [.grammarSpec, .rules, .ruleSpec, .parserRuleSpec, .exceptionGroup])

theorem clauselessCategories_closed :
    ∀ cat ∈ clauselessCategories, cat.form.uses (fun _ => true) clauselessCategories = true := by
  decide

theorem Tree.IsDerivation.dropClauses_eq_self (derivation : tree.IsDerivation cat)
    (clauseless : cat ∈ clauselessCategories) : tree.dropClauses = tree := by
  obtain ⟨start, stop, children, rfl, fits⟩ := derivation
  refine Fits.forall_of_uses (fun tree => tree.dropClauses = tree) clauselessCategories_closed
    (fun _ => rfl) (fun cat among start stop children parts => ?_)
    (@Fits.call _ 0 start stop _ fits) (uses_call.mpr clauseless) _ (mem_singleton_self _)
  have other : cat ≠ .exceptionGroup := by
    rintro rfl
    revert among
    decide
  rw [Tree.dropClauses, if_neg other, Tree.dropClausesOf_eq_map, map_congr_left parts, map_id']

theorem Tree.IsDerivation.category?_ne {outer : Category} (derivation : tree.IsDerivation outer)
    (outside : outer ≠ .exceptionGroup) : tree.category? ≠ some .exceptionGroup := by
  obtain ⟨_, _, _, rfl, -⟩ := derivation
  exact fun same => outside (Option.some.inj same)

/-- The phrase of a clauseless category in a phrase stays as it is. -/
theorem Tree.IsDerivation.dropClauses_phrase? {outer : Category} (derivation : tree.IsDerivation outer)
    (outside : outer ≠ .exceptionGroup) (clauseless : cat ∈ clauselessCategories) :
    tree.dropClauses.phrase? cat = tree.phrase? cat := by
  rw [Tree.dropClauses_phrase? (derivation.category?_ne outside)]
  cases found : tree.phrase? cat with
  | none => rfl
  | some inner =>
    have member : inner ∈ tree.phrases cat := mem_of_head? found
    rw [Option.map_some, (derivation.of_mem_phrases member).dropClauses_eq_self clauseless]

end Clauseless

end Phrase

namespace Rule

variable {tree : Tree}

theorem ofParserTree_dropClauses (derivation : tree.IsDerivation .parserRuleSpec) :
    ofParserTree tree.dropClauses = ofParserTree tree := by
  have outside := derivation.category?_ne (by decide)
  have block := @Tree.IsDerivation.dropClauses_phrase? _ .ruleBlock _ derivation (by decide) (by decide)
  simp [ofParserTree, nameIn, parserAlternatives, Tree.dropClauses_tokensOfKind outside, block]

theorem ofTree?_dropClauses (derivation : tree.IsDerivation .ruleSpec) :
    ofTree? tree.dropClauses = ofTree? tree := by
  have outside := derivation.category?_ne (by decide)
  have lexer := @Tree.IsDerivation.dropClauses_phrase? _ .lexerRuleSpec _ derivation (by decide) (by decide)
  simp only [ofTree?, lexer, Tree.dropClauses_phrase? outside .parserRuleSpec]
  cases found : tree.phrase? .parserRuleSpec with
  | none => rfl
  | some spec =>
    have member : spec ∈ tree.phrases .parserRuleSpec := mem_of_head? found
    simp [ofParserTree_dropClauses (derivation.of_mem_phrases member)]

end Rule

/-- The clauses for exceptions do not get into the grammar that the checks see. -/
theorem Grammar.ofTree_dropClauses {file : String} {tree : Tree} (derivation : tree.IsDerivation .grammarSpec) :
    ofTree file tree.dropClauses = ofTree file tree := by
  have outside := derivation.category?_ne (by decide)
  have declaration := @Tree.IsDerivation.dropClauses_phrase? _ .grammarDecl _ derivation (by decide) (by decide)
  simp only [ofTree, declaration, Tree.dropClauses_phrase? outside .rules]
  cases found : tree.phrase? .rules with
  | none => rfl
  | some rules =>
    have isRules := @Tree.IsDerivation.of_mem_phrases .rules _ _ _ derivation (mem_of_head? found)
    have inRules := isRules.category?_ne (by decide)
    simp only [Option.map_some, Tree.dropClauses_phrases inRules, filterMap_map]
    congr 1
    refine filterMap_congr fun spec member => ?_
    exact Rule.ofTree?_dropClauses (isRules.of_mem_phrases member)

/-- In a file without syntax errors, rules are told apart by their ranges. -/
theorem Grammar.nodup_ranges {file : String} {text : List Char}
    (faultless : (parse .grammarSpec text).errors = []) : ((ofText file text).rules.map (·.range)).Nodup := by
  rw [ofText, ofTree]
  cases found : (parse .grammarSpec text).tree.phrase? .rules with
  | none => exact nodup_nil
  | some rules =>
    obtain ⟨nested, apart⟩ := rules_nested (laid_rules faultless found)
    refine pairwise_map.mpr (apart.imp_of_mem fun {r s} isRule _ before same => ?_)
    obtain ⟨whole, range, forward, -⟩ := (nested r isRule).inside
    exact absurd (before whole range whole (same ▸ range)) (not_lt.mpr forward)

namespace Check

/-- Some element of a parser rule, outside all blocks, has a text that is taken for error recovery. -/
def showsRecovery (spec : Tree) : Bool :=
  (spec.descend Tree.elementPath).any fun inner =>
    containsAny inner.text ["catch", "finally", "recover", "error"]

theorem hintsAtRecovery_ofParserTree {spec : Tree} (derivation : spec.IsDerivation .parserRuleSpec) :
    hintsAtRecovery (.ofParserTree spec) = showsRecovery spec := by
  rw [hintsAtRecovery, Rule.elements_ofParserTree derivation, any_map]
  rfl

/-- The issue on a rule without error recovery. -/
def unrecoveredRule (g : Grammar) (config : RuleConfig) (rule : Rule) : Issue :=
  .of "E001" g config rule.range s!"Rule '{rule.name}' should include error recovery for robustness"
    "Add error recovery" "Consider adding catch blocks or error alternatives"

/-- The issue on a grammar without any error recovery. -/
def unrecoveredGrammar (g : Grammar) (config : RuleConfig) : Issue :=
  .of "E001" g config g.range "Grammar lacks error recovery strategies" "Add error recovery to key rules"
    "Add catch blocks to handle parsing errors gracefully"

section Reports

variable {g : Grammar} {config : RuleConfig} {rule : Rule} {issues : List Issue}

variable (g config rule) in
theorem unrecoveredRule_ne_unrecoveredGrammar : unrecoveredRule g config rule ≠ unrecoveredGrammar g config := by
  simp [unrecoveredRule, unrecoveredGrammar, Issue.of]

/-- Where issues stand at the ranges of rules, and rules are told apart by these, the issue on a rule is among
those on some rules just if the rule is one of them. -/
theorem mem_map_filter_iff {issue : Rule → Issue} {rules : List Rule} {p : Rule → Bool}
    (byRange : (rules.map (·.range)).Nodup) (ranged : ∀ r, (issue r).range = r.range) (isRule : rule ∈ rules) :
    issue rule ∈ (rules.filter p).map issue ↔ p rule = true := by
  constructor
  · intro mem
    obtain ⟨other, isOther, same⟩ := mem_map.mp mem
    obtain ⟨isOther, kept⟩ := mem_filter.mp isOther
    have sameRange : other.range = rule.range := by rw [← ranged, same, ranged]
    cases inj_on_of_nodup_map byRange isOther isRule sameRange
    exact kept
  · exact fun kept => mem_map_of_mem (mem_filter.mpr ⟨isRule, kept⟩)

variable (config) in
/-- The issues of a run, if the rules are told apart by their ranges. -/
theorem errorRecovery_run (byRange : (g.parserRules.map (·.range)).Nodup) :
    ∃ issues, errorRecovery.run g config = .ok issues ∧
      (∀ rule ∈ g.parserRules, unrecoveredRule g config rule ∈ issues ↔
        g.kind ≠ .lexer ∧ isImportant rule = true ∧ hintsAtRecovery rule = false) ∧
      (unrecoveredGrammar g config ∈ issues ↔
        g.kind ≠ .lexer ∧ g.parserRules ≠ [] ∧ ∀ rule ∈ g.parserRules, hintsAtRecovery rule = false) := by
  by_cases lexer : g.kind = .lexer
  · refine ⟨[], ?_, ?_⟩ <;> simp [errorRecovery, lexer]
  · have run : errorRecovery.run g config = .ok
        ((g.parserRules.filter fun r => !hintsAtRecovery r && isImportant r).map (unrecoveredRule g config) ++
          if g.parserRules.isEmpty || g.parserRules.any hintsAtRecovery then []
          else [unrecoveredGrammar g config]) := if_neg (by simpa using lexer)
    have apart (rule : Rule) := unrecoveredRule_ne_unrecoveredGrammar g config rule
    refine ⟨_, run, fun rule isRule => ?_, ?_⟩
    · rw [mem_append, mem_map_filter_iff byRange (fun _ => rfl) isRule, Bool.and_eq_true, and_comm]
      split_ifs <;> simp [lexer, apart]
    · have lacks : ¬(g.parserRules.isEmpty || g.parserRules.any hintsAtRecovery) = true ↔
          g.parserRules ≠ [] ∧ ∀ rule ∈ g.parserRules, hintsAtRecovery rule = false := by simp
      rw [← lacks]
      split_ifs with recovered <;> simp [lexer, apart, recovered]

variable (config) in
/-- The issues of a run on rules that are read from phrases. -/
theorem errorRecovery_run_specs {specs : List Tree} (rules : g.parserRules = specs.map Rule.ofParserTree)
    (derived : ∀ spec ∈ specs, spec.IsDerivation .parserRuleSpec)
    (byRange : (g.parserRules.map (·.range)).Nodup) :
    ∃ issues, errorRecovery.run g config = .ok issues ∧
      (∀ spec ∈ specs, unrecoveredRule g config (.ofParserTree spec) ∈ issues ↔
        g.kind ≠ .lexer ∧ isImportant (.ofParserTree spec) = true ∧ showsRecovery spec = false) ∧
      (unrecoveredGrammar g config ∈ issues ↔
        g.kind ≠ .lexer ∧ specs ≠ [] ∧ ∀ spec ∈ specs, showsRecovery spec = false) := by
  have hints (spec : Tree) (isSpec : spec ∈ specs) := hintsAtRecovery_ofParserTree (derived spec isSpec)
  obtain ⟨issues, run, onRule, onGrammar⟩ := errorRecovery_run config byRange
  refine ⟨issues, run, fun spec isSpec => ?_, ?_⟩
  · rw [onRule _ (rules ▸ mem_map_of_mem isSpec), hints spec isSpec]
  · rw [onGrammar, rules, forall_mem_map, ne_eq, ne_eq, map_eq_nil_iff]
    refine and_congr_right fun _ => and_congr_right fun _ => forall₂_congr fun spec isSpec => ?_
    rw [hints spec isSpec]

/-- When no rule of a kind is reported, nor the grammar if there is such a rule. -/
theorem forall_unreported_iff {specs : List Tree} {p : Tree → Bool}
    (onRule : ∀ spec ∈ specs, unrecoveredRule g config (.ofParserTree spec) ∈ issues ↔
      g.kind ≠ .lexer ∧ isImportant (.ofParserTree spec) = true ∧ showsRecovery spec = false)
    (onGrammar : unrecoveredGrammar g config ∈ issues ↔
      g.kind ≠ .lexer ∧ specs ≠ [] ∧ ∀ spec ∈ specs, showsRecovery spec = false) :
    (∀ spec ∈ specs, p spec = true → unrecoveredRule g config (.ofParserTree spec) ∉ issues ∧
        unrecoveredGrammar g config ∉ issues) ↔
      g.kind = .lexer ∨ ∀ spec ∈ specs, p spec = true →
        (isImportant (.ofParserTree spec) = true → showsRecovery spec = true) ∧
          ∃ other ∈ specs, showsRecovery other = true := by
  by_cases lexer : g.kind = .lexer
  · simp +contextual [onRule, onGrammar, lexer]
  · rw [or_iff_right lexer]
    refine forall₂_congr fun spec isSpec => imp_congr_right fun _ => and_congr ?_ ?_
    · rw [onRule spec isSpec]
      simp [lexer]
    · have inhabited : specs ≠ [] := ne_nil_of_mem isSpec
      rw [onGrammar]
      simp [lexer, inhabited]

end Reports

/-- In a file without syntax errors, what is reported goes by the texts of elements alone, and would be the
same without the clauses for exceptions. So these count for something only where the text of an element
happens to hint at error recovery: in each important rule that has such a clause, and in some rule if
there is any clause. -/
theorem errorRecovery_honours_iff (file : String) (text : List Char) (config : RuleConfig)
    (faultless : (parse .grammarSpec text).errors = []) :
    ∃ issues, errorRecovery.run (Grammar.ofText file text) config = .ok issues ∧
      (∀ spec ∈ (parse .grammarSpec text).tree.parserSpecs,
        unrecoveredRule (.ofText file text) config (.ofParserTree spec) ∈ issues ↔
          (Grammar.ofText file text).kind ≠ .lexer ∧ isImportant (.ofParserTree spec) = true ∧
            showsRecovery spec = false) ∧
      (unrecoveredGrammar (.ofText file text) config ∈ issues ↔
        (Grammar.ofText file text).kind ≠ .lexer ∧ (parse .grammarSpec text).tree.parserSpecs ≠ [] ∧
          ∀ spec ∈ (parse .grammarSpec text).tree.parserSpecs, showsRecovery spec = false) ∧
      ((∀ spec ∈ (parse .grammarSpec text).tree.parserSpecs, spec.handlesExceptions = true →
          unrecoveredRule (.ofText file text) config (.ofParserTree spec) ∉ issues ∧
            unrecoveredGrammar (.ofText file text) config ∉ issues) ↔
        (Grammar.ofText file text).kind = .lexer ∨
          ∀ spec ∈ (parse .grammarSpec text).tree.parserSpecs, spec.handlesExceptions = true →
            (isImportant (.ofParserTree spec) = true → showsRecovery spec = true) ∧
              ∃ other ∈ (parse .grammarSpec text).tree.parserSpecs, showsRecovery other = true) ∧
      (∀ spec ∈ (parse .grammarSpec text).tree.dropClauses.parserSpecs, spec.handlesExceptions = false) ∧
      Grammar.ofTree file (parse .grammarSpec text).tree.dropClauses = Grammar.ofText file text := by
  have derivation := (parse_derivation faultless).1
  have byRange : ((Grammar.ofText file text).parserRules.map (·.range)).Nodup :=
    (Grammar.nodup_ranges faultless).sublist (filter_sublist.map _)
  obtain ⟨issues, run, onRule, onGrammar⟩ := errorRecovery_run_specs config
    (Grammar.parserRules_ofTree derivation) (fun _ isSpec => ((Grammar.mem_parserSpecs derivation).mp isSpec).2)
    byRange
  exact ⟨issues, run, onRule, onGrammar, forall_unreported_iff onRule onGrammar,
    Tree.parserSpecs_dropClauses _, Grammar.ofTree_dropClauses derivation⟩

/-- A rule of an important name with a clause that catches exceptions. -/
def caughtBlock : List Char := "grammar G;block:T;catch[E]\x7b\x7d".toList

theorem caughtBlock_read : (parse .grammarSpec caughtBlock).errors = [] ∧
    (parse .grammarSpec caughtBlock).tree.parserSpecs.map (·.handlesExceptions) = [true] ∧
    ((errorRecovery.run (Grammar.ofText "G.g4" caughtBlock) {}).toOption.map (·.map (·.message))) =
      some ["Rule 'block' should include error recovery for robustness",
        "Grammar lacks error recovery strategies"] := by
  decide +kernel

theorem errorRecovery_honours_iff_caughtBlock : (parse .grammarSpec caughtBlock).errors = [] ∧
    ∃ issues, errorRecovery.run (Grammar.ofText "G.g4" caughtBlock) {} = .ok issues ∧
      (unrecoveredGrammar (.ofText "G.g4" caughtBlock) {} ∈ issues ↔
        (Grammar.ofText "G.g4" caughtBlock).kind ≠ .lexer ∧
          (parse .grammarSpec caughtBlock).tree.parserSpecs ≠ [] ∧
          ∀ spec ∈ (parse .grammarSpec caughtBlock).tree.parserSpecs, showsRecovery spec = false) ∧
      Grammar.ofTree "G.g4" (parse .grammarSpec caughtBlock).tree.dropClauses =
        Grammar.ofText "G.g4" caughtBlock := by
  have faultless := caughtBlock_read.1
  obtain ⟨issues, run, -, onGrammar, -, -, same⟩ := errorRecovery_honours_iff "G.g4" caughtBlock {} faultless
  exact ⟨faultless, issues, run, onGrammar, same⟩

/-- The rule is reported though it has a clause, and so is the grammar. -/
theorem caught_rule_reported : (parse .grammarSpec caughtBlock).errors = [] ∧
    (parse .grammarSpec caughtBlock).tree.parserSpecs.map (·.handlesExceptions) = [true] ∧
    ((errorRecovery.run (Grammar.ofText "G.g4" caughtBlock) {}).toOption.map (·.map (·.message))) =
      some ["Rule 'block' should include error recovery for robustness",
        "Grammar lacks error recovery strategies"] := caughtBlock_read

end Check

end GrammarLint
