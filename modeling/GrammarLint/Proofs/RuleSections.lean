import Mathlib
import GrammarLint.Proofs.Acceptance
import GrammarLint.Proofs.FormParts
import GrammarLint.Proofs.Reading

open List

namespace GrammarLint

open Phrase

namespace Phrase

def Category.isRule (cat : Category) : Bool :=
  cat == .parserRuleSpec || cat == .lexerRuleSpec

def Tree.isRuleSpec (tree : Tree) : Bool := tree.category?.any Category.isRule

/-- The mode in which the children of a phrase stand, if the phrase itself stands in `mode`. -/
def Tree.modeWithin (mode : Option String) (tree : Tree) : Option String :=
  if tree.category? = some .modeSpec then (tree.phrase? .identifier).map (·.text) else mode

mutual
/-- The rules anywhere in a tree, from left to right, each with the mode section around it. -/
def Tree.ruleSpecs (mode : Option String) : Tree → List (Option String × Tree)
  | .phrase cat start stop children =>
    (if Tree.isRuleSpec (.phrase cat start stop children) then
      [(mode, .phrase cat start stop children)] else []) ++
    ruleSpecsOf (Tree.modeWithin mode (.phrase cat start stop children)) children
  | .leaf _ => []
  | .error _ => []

def Tree.ruleSpecsOf (mode : Option String) : List Tree → List (Option String × Tree)
  | [] => []
  | tree :: rest => tree.ruleSpecs mode ++ ruleSpecsOf mode rest
end

mutual
theorem Tree.map_snd_ruleSpecs (mode : Option String) (depth : Nat) : (tree : Tree) →
    (tree.ruleSpecs mode).map (·.2) = ((tree.preorder depth).map (·.2)).filter Tree.isRuleSpec
  | .phrase cat start stop children => by
    rw [ruleSpecs, preorder, map_append, map_snd_ruleSpecsOf _ (depth + 1) children,
      map_cons, filter_cons]
    split <;> rfl
  | .leaf _ => rfl
  | .error _ => rfl

theorem Tree.map_snd_ruleSpecsOf (mode : Option String) (depth : Nat) : (trees : List Tree) →
    (ruleSpecsOf mode trees).map (·.2) =
      ((preorderOf depth trees).map (·.2)).filter Tree.isRuleSpec
  | [] => rfl
  | tree :: rest => by
    rw [ruleSpecsOf, preorderOf, map_append, map_append, filter_append,
      map_snd_ruleSpecs mode depth tree, map_snd_ruleSpecsOf mode depth rest]
end

section Inside

variable {mode : Option String}

theorem Tree.ruleSpecsOf_eq_flatMap (trees : List Tree) :
    ruleSpecsOf mode trees = trees.flatMap (ruleSpecs mode) := by
  induction trees with
  | nil => rfl
  | cons tree rest ih => rw [ruleSpecsOf, ih, flatMap_cons]

variable {cat : Category} {start : Lexical.Token} {stop : Option Lexical.Token}
  {children : List Tree} {tree : Tree}

theorem Tree.ruleSpecs_phrase (noRule : cat.isRule = false) :
    ruleSpecs mode (.phrase cat start stop children) =
      children.flatMap (ruleSpecs (modeWithin mode (.phrase cat start stop children))) := by
  rw [ruleSpecs, ruleSpecsOf_eq_flatMap, isRuleSpec, category?, Option.any_some, noRule]
  rfl

theorem Tree.modeWithin_eq_self (other : cat ≠ .modeSpec) :
    modeWithin mode (.phrase cat start stop children) = mode :=
  if_neg fun same => other (Option.some.inj same)

/-- The categories of what stands in front of the rules and inside them. -/
def innerCategories : List Category :=
  Category.all.filter (· ∉ [.grammarSpec, .modeSpec, .rules, .ruleSpec, .parserRuleSpec, .lexerRuleSpec])

def Form.isInner (form : Form) : Bool := form.uses (fun _ => true) innerCategories

theorem innerCategories_closed : ∀ cat ∈ innerCategories, cat.form.isInner = true := by
  decide

theorem innerCategories_noRule : ∀ cat ∈ innerCategories, cat.isRule = false := by
  decide

theorem rule_isInner : ∀ cat : Category, cat.isRule = true → cat.form.isInner = true
  | .parserRuleSpec, _ => by decide
  | .lexerRuleSpec, _ => by decide

/-- Inner phrases hold no rule. -/
theorem Fits.flatMap_ruleSpecs_eq_nil {form : Form} {trees : List Tree} (fits : Fits form trees)
    (own : form.isInner = true) : trees.flatMap (Tree.ruleSpecs mode) = [] := by
  refine flatMap_eq_nil_iff.mpr fun tree mem => ?_
  refine Fits.forall_of_uses (fun tree => ∀ mode, tree.ruleSpecs mode = []) innerCategories_closed
    (fun _ _ => rfl) (fun cat inner start stop children parts mode => ?_) fits own tree mem mode
  rw [Tree.ruleSpecs_phrase (innerCategories_noRule _ inner)]
  exact flatMap_eq_nil_iff.mpr fun child isChild => parts child isChild _

theorem Tree.IsDerivation.ruleSpecs_inner (derivation : tree.IsDerivation cat)
    (inner : cat ∈ innerCategories) : tree.ruleSpecs mode = [] := by
  obtain ⟨start, stop, children, rfl, fits⟩ := derivation
  rw [Tree.ruleSpecs_phrase (innerCategories_noRule _ inner)]
  exact fits.flatMap_ruleSpecs_eq_nil (innerCategories_closed _ inner)

/-- A rule holds no further rule. -/
theorem Tree.IsDerivation.ruleSpecs_rule (derivation : tree.IsDerivation cat)
    (isRule : cat.isRule = true) : tree.ruleSpecs mode = [(mode, tree)] := by
  obtain ⟨start, stop, children, rfl, fits⟩ := derivation
  have own := rule_isInner cat isRule
  rw [Tree.ruleSpecs, ruleSpecsOf_eq_flatMap, fits.flatMap_ruleSpecs_eq_nil own]
  simp [Tree.isRuleSpec, Tree.category?, isRule]

end Inside

end Phrase

/-- The rule that a rule phrase in a mode section stands for. -/
def Rule.ofSpec (spec : Option String × Tree) : Rule :=
  { (if spec.2.category? = some .parserRuleSpec then ofParserTree spec.2 else ofLexerTree spec.2) with
    mode := spec.1 }

namespace Phrase.Tree.IsDerivation

/-- A phrase of the rules outside all modes is read as the one rule in it. -/
theorem ruleSpec {mode : Option String} {tree : Tree} (derivation : tree.IsDerivation .ruleSpec) :
    ∃ spec, tree.ruleSpecs mode = [(mode, spec)] ∧
      Rule.ofTree? tree = some (Rule.ofSpec (none, spec)) := by
  obtain ⟨start, stop, children, rfl, fits⟩ := derivation
  have inside (spec : Tree) : ruleSpecs mode (.phrase .ruleSpec start stop [spec]) =
      spec.ruleSpecs mode := by
    rw [ruleSpecs_phrase rfl, flatMap_singleton]
    rfl
  cases fits with
  | choice alternative =>
    cases alternative with
    | left called =>
      obtain ⟨spec, rfl, parserRule⟩ := called.call_inv
      refine ⟨spec, (inside spec).trans (parserRule.ruleSpecs_rule rfl), ?_⟩
      obtain ⟨start, stop, children, rfl, -⟩ := parserRule
      rfl
    | right called =>
      obtain ⟨spec, rfl, lexerRule⟩ := called.call_inv
      refine ⟨spec, (inside spec).trans (lexerRule.ruleSpecs_rule rfl), ?_⟩
      obtain ⟨start, stop, children, rfl, -⟩ := lexerRule
      rfl

/-- Phrases of the rules outside all modes are read rule by rule. -/
theorem ruleSpecs_of_forall {trees : List Tree} (each : ∀ tree ∈ trees, tree.IsDerivation .ruleSpec) :
    trees.filterMap Rule.ofTree? = (trees.flatMap (ruleSpecs none)).map Rule.ofSpec ∧
    ∀ spec ∈ trees.flatMap (ruleSpecs none), spec.1 = none := by
  induction trees with
  | nil => simp
  | cons tree rest ih =>
    obtain ⟨spec, specs, read⟩ := @ruleSpec none _ (each tree (mem_cons_self ..))
    obtain ⟨rules, modes⟩ := ih fun tree mem => each tree (mem_cons_of_mem _ mem)
    rw [filterMap_cons_some read, flatMap_cons, specs, rules]
    exact ⟨rfl, forall_mem_cons.mpr ⟨rfl, modes⟩⟩

variable {tree : Tree}

theorem rules (derivation : tree.IsDerivation .rules) :
    (tree.phrases .ruleSpec).filterMap Rule.ofTree? = (tree.ruleSpecs none).map Rule.ofSpec ∧
    ∀ spec ∈ tree.ruleSpecs none, spec.1 = none := by
  obtain ⟨start, stop, children, rfl, fits⟩ := derivation
  have each := fits.calls_inv
  have phrases : phrases .ruleSpec (.phrase .rules start stop children) = children := by
    refine filter_eq_self.mpr fun tree mem => ?_
    obtain ⟨start, stop, children, rfl, -⟩ := each tree mem
    rfl
  rw [phrases, ruleSpecs_phrase rfl]
  exact ruleSpecs_of_forall each

/-- The rules of a mode section stand in the mode that it names. -/
theorem modeSpec {mode : Option String} (derivation : tree.IsDerivation .modeSpec) :
    ∀ spec ∈ tree.ruleSpecs mode, spec.1.isSome = true := by
  obtain ⟨start, stop, children, rfl, fits⟩ := derivation
  obtain ⟨_, _, rfl, first, afterKeyword⟩ := fits.seq_inv
  obtain ⟨keyword, rfl⟩ := first.token_inv
  obtain ⟨_, _, rfl, called, afterName⟩ := afterKeyword.seq_inv
  obtain ⟨name, rfl, isName⟩ := called.call_inv
  obtain ⟨_, rules, rfl, last, loop⟩ := afterName.seq_inv
  obtain ⟨semicolon, rfl⟩ := last.token_inv
  have named : modeWithin mode (.phrase .modeSpec start stop ([.leaf keyword] ++ ([name] ++
      ([.leaf semicolon] ++ rules)))) = some name.text := by
    obtain ⟨_, _, _, rfl, -⟩ := isName
    simp [modeWithin, category?, phrase?]
  intro spec mem
  rw [ruleSpecs_phrase rfl, named] at mem
  simp only [flatMap_append, flatMap_singleton, ruleSpecs, nil_append,
    isName.ruleSpecs_inner (by decide), mem_flatMap] at mem
  obtain ⟨rule, isMember, mem⟩ := mem
  rw [(loop.calls_inv rule isMember).ruleSpecs_rule rfl, mem_singleton] at mem
  rw [mem]
  rfl

/-- The rules of a grammar are those outside all modes, in their order. -/
theorem grammarSpec {file : String} {tree : Tree} (derivation : tree.IsDerivation .grammarSpec) :
    (Grammar.ofTree file tree).rules = ((tree.ruleSpecs none).filter (·.1.isNone)).map Rule.ofSpec := by
  obtain ⟨start, stop, children, rfl, fits⟩ := derivation
  obtain ⟨_, _, rfl, first, afterDeclaration⟩ := fits.seq_inv
  obtain ⟨declaration, rfl, isDeclaration⟩ := first.call_inv
  obtain ⟨prequels, _, rfl, front, afterPrequels⟩ := afterDeclaration.seq_inv
  obtain ⟨_, _, rfl, called, afterRules⟩ := afterPrequels.seq_inv
  obtain ⟨rules, rfl, isRules⟩ := called.call_inv
  obtain ⟨sections, _, rfl, modes, last⟩ := afterRules.seq_inv
  obtain ⟨finish, rfl⟩ := last.token_inv
  have found : (phrase .grammarSpec start stop ([declaration] ++ (prequels ++ ([rules] ++
      (sections ++ [.leaf finish]))))).phrase? .rules = some rules := by
    have noPrequel : prequels.filter (·.category? == some .rules) = [] := by
      refine filter_eq_nil_iff.mpr fun tree mem => ?_
      obtain ⟨_, _, _, rfl, -⟩ := front.calls_inv tree mem
      exact Bool.false_ne_true
    obtain ⟨_, _, _, rfl, -⟩ := isDeclaration
    obtain ⟨_, _, _, rfl, -⟩ := isRules
    simp only [phrase?, phrases, children, filter_append, noPrequel]
    rfl
  have specs : (phrase .grammarSpec start stop ([declaration] ++ (prequels ++ ([rules] ++
      (sections ++ [.leaf finish]))))).ruleSpecs none =
      rules.ruleSpecs none ++ sections.flatMap (ruleSpecs none) := by
    rw [ruleSpecs_phrase rfl, modeWithin_eq_self (by decide)]
    simp [isDeclaration.ruleSpecs_inner (by decide), front.flatMap_ruleSpecs_eq_nil (by decide), ruleSpecs]
  have inside : ∀ spec ∈ sections.flatMap (ruleSpecs none), ¬spec.1.isNone = true := by
    intro spec mem
    obtain ⟨mode, isMember, mem⟩ := mem_flatMap.mp mem
    simpa [Option.isSome_iff_ne_none] using (modes.calls_inv mode isMember).modeSpec spec mem
  obtain ⟨read, outside⟩ := isRules.rules
  simp only [Grammar.ofTree, found, read, specs, filter_append,
    filter_eq_nil_iff.mpr inside, append_nil]
  rw [filter_eq_self.mpr fun spec mem => by simp [outside spec mem]]

end Phrase.Tree.IsDerivation

namespace Grammar

/-- Of a file without syntax errors, a grammar has the rules outside all modes, and all rules of the
file just where no mode section has one. -/
theorem rules_ofText (file : String) (text : List Char)
    (faultless : (parse .grammarSpec text).errors = []) :
    (ofText file text).rules = (((parse .grammarSpec text).tree.ruleSpecs none).filter
      (·.1.isNone)).map Rule.ofSpec ∧
    ((ofText file text).rules = ((parse .grammarSpec text).tree.ruleSpecs none).map Rule.ofSpec ↔
      ∀ spec ∈ (parse .grammarSpec text).tree.ruleSpecs none, spec.1 = none) ∧
    ((parse .grammarSpec text).tree.ruleSpecs none).map (·.2) =
      (((parse .grammarSpec text).tree.preorder 0).map (·.2)).filter Tree.isRuleSpec := by
  obtain ⟨children, stop, tree, fits, -⟩ := parseTokens_unfailed (start_proper text) faultless
  have rules := @Tree.IsDerivation.grammarSpec file (parse .grammarSpec text).tree
    ⟨_, stop, children, tree, fits⟩
  refine ⟨rules, ?_, Tree.map_snd_ruleSpecs none 0 _⟩
  rw [ofText, rules]
  constructor
  · intro same spec member
    have whole := congrArg List.length same
    simp only [length_map, length_filter_eq_length_iff] at whole
    simpa using whole spec member
  · intro outside
    rw [filter_eq_self.mpr fun spec member => by simp [outside spec member]]

def modeSection : List Char := "lexer grammar L;A:'a';mode M;B:'b';".toList

def literalRule : List Lexical.Kind := [.tokenRef, .colon, .stringLiteral, .semicolon]

theorem derives_literalRule : Derives Category.lexerRuleSpec.form literalRule := by
  have literal : Derives Category.terminalDef.form [.stringLiteral] :=
    .choice (.right (.seq .token .absent))
  have atom : Derives Category.lexerAtom.form [.stringLiteral] :=
    .choice (.right (.left (.call literal)))
  have element : Derives Category.lexerElement.form _ := .choice (.left (.seq (.call atom) .absent))
  have elements : Derives Category.lexerElements.form _ := .choice (.left (.plus (.call element) .stop))
  have alternative : Derives Category.lexerAlt.form _ := .choice (.left (.seq (.call elements) .absent))
  have list : Derives Category.lexerAltList.form _ := .seq (.call alternative) (.star .stop)
  have block : Derives Category.lexerRuleBlock.form _ := .call list
  exact .seq .absent (.seq .token (.seq .absent (.seq .token (.seq (.call block) .token))))

/-- The kinds of the tokens of `modeSection`. -/
def modeSectionKinds : List Lexical.Kind :=
  [.lexerKeyword, .grammarKeyword, .tokenRef, .semicolon] ++ literalRule ++
    ([.modeKeyword, .tokenRef, .semicolon] ++ literalRule) ++ [.endOfFile]

theorem derives_modeSection : Derives Category.grammarSpec.form modeSectionKinds := by
  have name : Derives Category.identifier.form [.tokenRef] := .oneOf (by decide)
  have words : Derives Category.grammarType.form [.lexerKeyword, .grammarKeyword] :=
    .choice (.left (.seq .token .token))
  have declaration : Derives Category.grammarDecl.form _ :=
    .seq (.call words) (.seq (.call name) .token)
  have rule : Derives Category.ruleSpec.form _ := .choice (.right (.call derives_literalRule))
  have outside : Derives Category.rules.form _ := .star (.round (.call rule) .stop)
  have inside : Derives Category.modeSpec.form _ :=
    .seq .token (.seq (.call name) (.seq .token (.star (.round (.call derives_literalRule) .stop))))
  have whole : Derives Category.grammarSpec.form _ := .seq (.call declaration) (.seq (.star .stop)
    (.seq (.call outside) (.seq (.star (.round (.call inside) .stop)) .token)))
  exact whole

theorem rules_ofText_modeSection : (parse .grammarSpec modeSection).errors = [] ∧
    (ofText "L.g4" modeSection).rules = (((parse .grammarSpec modeSection).tree.ruleSpecs none).filter
      (·.1.isNone)).map Rule.ofSpec := by
  have kinds : (mainTokens modeSection).map (·.kind) ++ [.endOfFile] = modeSectionKinds := by cbv
  have faultless := parseTokens_of_derives (start_proper modeSection) (kinds ▸ derives_modeSection)
  exact ⟨faultless, (rules_ofText "L.g4" modeSection faultless).1⟩

/-- The rule in a mode section is not part of the grammar, though nothing is wrong with its text. -/
theorem rule_in_mode_dropped : (parse .grammarSpec modeSection).errors = [] ∧
    (((parse .grammarSpec modeSection).tree.ruleSpecs none).map Rule.ofSpec).map
      (fun rule => (rule.name, rule.mode)) = [("A", none), ("B", some "M")] ∧
    (ofText "L.g4" modeSection).rules.map (·.name) = ["A"] := by
  decide +kernel

end Grammar

end GrammarLint
