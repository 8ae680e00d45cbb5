import GrammarLint.Proofs.Relocation
import GrammarLint.Proofs.RuleSections

open List

namespace GrammarLint

open Phrase

namespace Phrase.Tree

variable (tree : Tree)

def spec? : Option Tree := (tree.phrase? .parserRuleSpec).or (tree.phrase? .lexerRuleSpec)

def specs : List Tree := ((tree.phrase? .rules).elim [] (·.phrases .ruleSpec)).filterMap spec?

/-- The alternatives of a rule. -/
def choices : List Tree :=
  if tree.category? = some .parserRuleSpec then tree.alternatives .ruleBlock .ruleAltList .labeledAlt
  else tree.alternatives .lexerRuleBlock .lexerAltList .lexerAlt

/-- The elements of an alternative. -/
def members : List Tree :=
  if tree.category? = some .labeledAlt then tree.elementsIn .alternative .element
  else tree.elementsIn .lexerElements .lexerElement

def leads : List Tree := tree.choices.filterMap (·.members.head?)

variable {tree} (c : Change)

theorem change_spec? : (tree.change c).spec? = tree.spec?.map (change c) := by
  rw [spec?, spec?, change_phrase?, change_phrase?]
  cases tree.phrase? .parserRuleSpec <;> rfl

theorem change_specs : (tree.change c).specs = tree.specs.map (change c) := by
  rw [specs, specs, change_phrase?]
  cases tree.phrase? .rules with
  | none => rfl
  | some rules => simp [change_phrases, map_filterMap, change_spec?]

theorem change_choices : (tree.change c).choices = tree.choices.map (change c) := by
  rw [choices, choices, change_category?, change_alternatives, change_alternatives]
  split <;> rfl

theorem change_members : (tree.change c).members = tree.members.map (change c) := by
  rw [members, members, change_category?, change_elementsIn, change_elementsIn]
  split <;> rfl

theorem category?_of_mem_phrases {child : Tree} {cat : Category} (member : child ∈ tree.phrases cat) :
    child.category? = some cat := eq_of_beq (mem_filter.mp member).2

theorem category?_of_mem_alternatives {outer inner item : Category} {alt : Tree}
    (mem : alt ∈ tree.alternatives outer inner item) : alt.category? = some item := by
  unfold alternatives at mem
  cases listed : (tree.phrase? outer).bind (·.phrase? inner) with
  | none => simp [listed] at mem
  | some list => exact category?_of_mem_phrases (by simpa [listed] using mem)

end Phrase.Tree

/-- An alternative of a rule. -/
def Alternative.ofTree (alt : Tree) : Alternative :=
  ⟨alt.members.map Element.ofTree,
    if alt.category? = some .labeledAlt then (alt.phrase? .identifier).map (·.text) else none, none⟩

theorem Alternative.firstText?_ofTree (alt : Tree) :
    (Alternative.ofTree alt).firstText? = alt.members.head?.map (·.text) := by
  simp [firstText?, ofTree, Element.ofTree, Function.comp_def]

theorem Alternative.firstText?_change (c : Change) (alt : Tree) :
    (Alternative.ofTree (alt.change c)).firstText? = alt.members.head?.map fun e => (e.change c).text := by
  rw [firstText?_ofTree, Tree.change_members, head?_map, Option.map_map]
  rfl

theorem Rule.ofSpec_alternatives (mode : Option String) (spec : Tree) :
    (ofSpec (mode, spec)).alternatives = spec.choices.map Alternative.ofTree := by
  unfold ofSpec Tree.choices
  split
  · refine (parserAlternatives_eq spec).trans (map_congr_left fun alt mem => ?_)
    have isParser := Tree.category?_of_mem_alternatives mem
    simp [Alternative.ofTree, Tree.members, isParser]
  · refine (lexerAlternatives_eq spec).trans (map_congr_left fun alt mem => ?_)
    have isLexer := Tree.category?_of_mem_alternatives mem
    simp [Alternative.ofTree, Tree.members, isLexer]

theorem Rule.ofTree?_eq_map (tree : Tree) : ofTree? tree = tree.spec?.map fun spec => ofSpec (none, spec) := by
  unfold ofTree? Tree.spec?
  cases parser : tree.phrase? .parserRuleSpec with
  | some spec =>
    have isParser := Tree.category?_of_mem_phrases (mem_of_mem_head? parser)
    simp [ofSpec, isParser, ofParserTree]
  | none =>
    cases lexer : tree.phrase? .lexerRuleSpec with
    | some spec =>
      have isLexer := Tree.category?_of_mem_phrases (mem_of_mem_head? lexer)
      simp [ofSpec, isLexer, ofLexerTree]
    | none => rfl

theorem Grammar.rules_ofTree (file : String) (tree : Tree) :
    (ofTree file tree).rules = tree.specs.map fun spec => Rule.ofSpec (none, spec) := by
  rw [ofTree, Tree.specs]
  cases tree.phrase? .rules with
  | none => rfl
  | some rules =>
    simp only [Option.elim_some, map_filterMap]
    exact filterMap_congr fun tree _ => Rule.ofTree?_eq_map tree

end GrammarLint
