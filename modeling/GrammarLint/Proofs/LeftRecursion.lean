import GrammarLint.Proofs.ExceptionClauses
import GrammarLint.Proofs.LiteralTokens
import GrammarLint.Proofs.NameCases
import GrammarLint.Proofs.RuleUses

open List

namespace GrammarLint

open Phrase
open Lexical (Kind Token Marked)

namespace Phrase

/-- A reference to a rule, with what may stand around the name: a label, arguments, options and a suffix. -/
structure Reference where
  name : String
  isLabeled : Bool
  hasArguments : Bool
  hasOptions : Bool
  isSuffixed : Bool
deriving DecidableEq, Repr

def Reference.bare (name : String) : Reference := ⟨name, false, false, false, false⟩

namespace Tree

/-- The reference to a rule that an element is. -/
def reference? (element : Tree) : Option Reference :=
  let labeled := element.phrase? .labeledElement
  (((labeled.getD element).phrase? .atom).bind (·.phrase? .ruleRef)).map fun called =>
    { name := Rule.nameIn .ruleRef called, isLabeled := labeled.isSome,
      hasArguments := (called.phrase? .argActionBlock).isSome,
      hasOptions := (called.phrase? .elementOptions).isSome,
      isSuffixed := (element.phrase? .ebnfSuffix).isSome }

def firstReferences (spec : Tree) : List Reference :=
  (spec.descend alternativePath).filterMap fun body => (body.phrase? .element).bind reference?

end Tree

section Elements

variable {cat outer : Category} {form : Form} {trees : List Tree} {start : Token} {stop : Option Token}
  {name : String} {tree : Tree}

theorem Fits.phrase?_eq_none (fits : Fits form trees) (without : form.fixed cat = some 0) :
    (Tree.phrase outer start stop trees).phrase? cat = none := by
  have count := fits.countP_eq without
  rw [countP_eq_length_filter, length_eq_zero_iff] at count
  exact congrArg head? count

/-- A reference to a rule without arguments and options is a name. -/
theorem Fits.ruleRef_bare (fits : Fits Category.ruleRef.form trees)
    (unargued : (Tree.phrase outer start stop trees).phrase? .argActionBlock = none)
    (plain : (Tree.phrase outer start stop trees).phrase? .elementOptions = none) :
    ∃ token : Token, token.kind = .ruleRef ∧ trees = [.leaf token] := by
  obtain ⟨us, _, rfl, first, rest⟩ := fits.seq_inv
  obtain ⟨vs, ws, rfl, arguments, options⟩ := rest.seq_inv
  obtain ⟨token, kind, rfl⟩ := first.leaf_inv
  cases arguments with
  | present called =>
    obtain ⟨_, rfl, _, _, children, rfl, inside⟩ := called.call_inv
    simp [Tree.phrase?, Tree.phrases, Tree.children, Tree.category?] at unargued
  | absent =>
    cases options with
    | present called =>
      obtain ⟨_, rfl, _, _, children, rfl, inside⟩ := called.call_inv
      simp [Tree.phrase?, Tree.phrases, Tree.children, Tree.category?] at plain
    | absent => exact ⟨token, kind, rfl⟩

/-- An element without a label and a suffix that has an atom is one. -/
theorem Fits.element_atom (fits : Fits Category.element.form trees)
    (unlabeled : (Tree.phrase outer start stop trees).phrase? .labeledElement = none)
    (unsuffixed : (Tree.phrase outer start stop trees).phrase? .ebnfSuffix = none) {atom : Tree}
    (found : (Tree.phrase outer start stop trees).phrase? .atom = some atom) :
    trees = [atom] ∧ atom.IsDerivation .atom := by
  cases fits with
  | choice alternatives =>
    cases alternatives with
    | left labeled =>
      obtain ⟨inner, -, found⟩ := @Fits.phrases_eq .labeledElement _ _ labeled (by decide) outer start stop
      simp [unlabeled] at found
    | right others =>
      cases others with
      | right others =>
        have none_ := @Fits.phrase?_eq_none .atom outer _ _ start stop others (by decide)
        simp [none_] at found
      | left bare =>
        obtain ⟨us, vs, rfl, called, suffix⟩ := bare.seq_inv
        obtain ⟨_, rfl, start, stop, children, rfl, inside⟩ := called.call_inv
        cases suffix with
        | choice suffix =>
          cases suffix with
          | left suffix =>
            obtain ⟨_, rfl, _, _, _, rfl, -⟩ := suffix.call_inv
            simp [Tree.phrase?, Tree.phrases, Tree.children, Tree.category?] at unsuffixed
          | right nothing =>
            cases nothing
            obtain rfl : _ = atom := by
              simpa [Tree.phrase?, Tree.children, Tree.category?] using found
            exact ⟨rfl, start, stop, children, rfl, inside⟩

/-- An atom that has a reference to a rule is one. -/
theorem Fits.atom_ruleRef (fits : Fits Category.atom.form trees) {called : Tree}
    (found : (Tree.phrase outer start stop trees).phrase? .ruleRef = some called) :
    trees = [called] ∧ called.IsDerivation .ruleRef := by
  have absent {form : Form} (inside : Fits form trees) (without : form.fixed .ruleRef = some 0) : False := by
    rw [inside.phrase?_eq_none without] at found
    cases found
  cases fits with
  | choice alternatives =>
    cases alternatives with
    | left terminal => exact (absent terminal (by decide)).elim
    | right others =>
      cases others with
      | right others => exact (absent others (by decide)).elim
      | left reference =>
        obtain ⟨_, rfl, start, stop, children, rfl, inside⟩ := reference.call_inv
        obtain rfl : _ = called := by
          simpa [Tree.phrase?, Tree.children, Tree.category?] using found
        exact ⟨rfl, start, stop, children, rfl, inside⟩

theorem nameIn_leaf {kind : Kind} {token : Token} (isKind : token.kind = kind) :
    Rule.nameIn kind (.phrase cat start stop [.leaf token]) = token.text := by
  simp [Rule.nameIn, Tree.tokensOfKind, Tree.children, Tree.token?, Option.filter, isKind]

theorem reference?_eq_bare : tree.reference? = some (.bare name) ↔
    tree.phrase? .labeledElement = none ∧ tree.phrase? .ebnfSuffix = none ∧
      ∃ atom called, tree.phrase? .atom = some atom ∧ atom.phrase? .ruleRef = some called ∧
        called.phrase? .argActionBlock = none ∧ called.phrase? .elementOptions = none ∧
        Rule.nameIn .ruleRef called = name := by
  simp only [Tree.reference?, Reference.bare, Option.map_eq_some_iff, Option.bind_eq_some_iff, Reference.mk.injEq,
    Option.isSome_eq_false_iff, Option.isNone_iff_eq_none]
  constructor
  · rintro ⟨called, ⟨atom, inElement, inAtom⟩, named, unlabeled, unargued, plain, unsuffixed⟩
    rw [unlabeled] at inElement
    exact ⟨unlabeled, unsuffixed, atom, called, inElement, inAtom, unargued, plain, named⟩
  · rintro ⟨unlabeled, unsuffixed, atom, called, inElement, inAtom, unargued, plain, named⟩
    rw [unlabeled]
    exact ⟨called, ⟨atom, inElement, inAtom⟩, named, rfl, unargued, plain, unsuffixed⟩

/-- An element is a bare reference just if it is a single name of a rule. -/
theorem Tree.IsDerivation.reference?_eq_bare (derivation : tree.IsDerivation .element) :
    tree.reference? = some (.bare name) ↔ tree.bareRule? = some name := by
  rw [Phrase.reference?_eq_bare, Tree.bareRule?_eq_some]
  obtain ⟨start, stop, children, rfl, fits⟩ := derivation
  constructor
  · rintro ⟨unlabeled, unsuffixed, atom, called, inElement, inAtom, unargued, plain, rfl⟩
    obtain ⟨rfl, _, _, _, rfl, isAtom⟩ := fits.element_atom unlabeled unsuffixed inElement
    obtain ⟨rfl, _, _, _, rfl, isCalled⟩ := isAtom.atom_ruleRef inAtom
    obtain ⟨token, kind, rfl⟩ := isCalled.ruleRef_bare unargued plain
    exact ⟨token, rfl, kind, (nameIn_leaf kind).symm⟩
  · rintro ⟨token, tokens, kind, rfl⟩
    rw [Tree.tokens] at tokens
    obtain ⟨_, _, _, _, rfl⟩ := fits.element_ruleName tokens kind
    exact ⟨rfl, rfl, _, _, rfl, rfl, rfl, rfl, nameIn_leaf kind⟩

end Elements

end Phrase

namespace Lexical

open Vocabulary

/-- The characters with which parts of an element other than names begin. -/
def signs : List Char := ['\'', '\x7b', '(', '~', '.', '?', '*', '+', '=', '<', '[']

variable {kind : Kind}

theorem mark_mem_signs {c : Char} (isMark : c ∈ kind.mark?) : c ∈ signs := by
  unfold Kind.mark? at isMark
  split at isMark <;> cases isMark <;> decide

/-- There are no such characters in a name. -/
theorem Origin.name_signless {content text : List Char} {position : Position}
    (origin : Origin content position kind text)
    (isName : kind.isName = true) : ∀ c ∈ signs, c ∉ text := by
  have only : ∀ rule ∈ defaultRules, rule.effect = .name → rule = nameRule := by decide
  have avoids : ∀ c ∈ signs, (Pattern.seq (.oneOf nameStartRanges) (.star (.oneOf nameRanges))).avoids c = true := by
    decide +kernel
  obtain ⟨_, _, found, -⟩ := origin.name_inv isName
  obtain ⟨rule, wins, same⟩ := nextPiece_wins found
  cases only rule wins.mem same
  exact fun c isSign => (wins.takes rfl (by decide)).avoids (avoids c isSign)

end Lexical

namespace Phrase

/-- An element has the name of a rule as its text if it is a bare reference to it. -/
theorem Tree.IsDerivation.text_eq_iff {tree : Tree} (derivation : tree.IsDerivation .element)
    (marked : ∀ token ∈ tree.tokens, Marked token.kind token.text.toList)
    (opened : ∀ token ∈ tree.tokens, token.kind = .beginArgument → token.text.toList = ['['])
    {name : Token} (isRule : name.kind = .ruleRef) (named : Marked name.kind name.text.toList)
    (signless : ∀ c ∈ Lexical.signs, c ∉ name.text.toList) :
    tree.text = name.text ↔ tree.reference? = some (.bare name.text) := by
  rw [derivation.reference?_eq_bare]
  constructor
  · intro same
    have inside {token : Token} (mem : token ∈ tree.tokens) {c : Char} (first : token.text.toList.head? = some c) :
        c ∉ Lexical.signs := by
      intro isSign
      refine signless c isSign ?_
      rw [← same, Tree.text_toList]
      exact mem_flatMap.mpr ⟨token, mem, mem_of_head? first⟩
    have unmarked : ∀ token ∈ tree.tokens, token.kind.mark? = none := fun token mem =>
      Option.eq_none_iff_forall_ne_some.mpr fun c isMark =>
        inside mem ((marked token mem).mark c isMark) (Lexical.mark_mem_signs isMark)
    have unopened : ∀ token ∈ tree.tokens, token.kind ≠ .beginArgument := fun token mem opening =>
      inside mem (congrArg head? (opened token mem opening)) (by decide)
    have small : ¬ name.text.toList.head?.any Text.isUpper = true := by
      rw [← nameKind_eq_tokenRef, (named.name (by simp [Kind.isName, isRule])).2, isRule]
      decide
    rw [← same] at small ⊢
    exact derivation.bareRule?_text marked unmarked unopened (Bool.eq_false_iff.mpr small)
  · intro bare
    obtain ⟨token, tokens, -, text⟩ := Tree.bareRule?_eq_some.mp bare
    simp [Tree.text, tokens, text]

end Phrase

/-- The texts with which the alternatives of a parser rule begin. -/
theorem Rule.firstTexts_ofParserTree {spec : Tree} (derivation : spec.IsDerivation .parserRuleSpec) :
    (ofParserTree spec).alternatives.map (·.firstText?) =
      (spec.descend Tree.alternativePath).map fun body => (body.phrase? .element).map (·.text) := by
  have heads := congrArg (map fun elements : List Element => elements.head?.map (·.text))
    (alternatives_ofParserTree derivation)
  simpa [Function.comp_def, Alternative.firstText?, Tree.phrase?, Element.ofTree] using heads

namespace Check

variable {spec : Tree}

/-- A parser rule counts as left recursive if an alternative begins with a bare reference to it. -/
theorem isLeftRecursive_ofParserTree (derivation : spec.IsDerivation .parserRuleSpec) {name : String}
    (named : (Rule.ofParserTree spec).name = name)
    (each : ∀ inner : Tree, inner.IsDerivation .element → inner.tokens ⊆ spec.tokens →
      (inner.text = name ↔ inner.reference? = some (.bare name))) :
    isLeftRecursive (.ofParserTree spec) = true ↔ .bare name ∈ spec.firstReferences := by
  have firsts : isLeftRecursive (.ofParserTree spec) =
      ((Rule.ofParserTree spec).alternatives.map (·.firstText?)).any (· == some name) := by
    rw [isLeftRecursive, named, any_map]
    rfl
  rw [firsts, Rule.firstTexts_ofParserTree derivation, any_map, any_eq_true, Tree.firstReferences,
    mem_filterMap]
  refine exists_congr fun body => and_congr_right fun isBody => ?_
  have isAlternative : body.IsDerivation .alternative := Tree.IsDerivation.of_mem_descend .alternative
    [.ruleBlock, .ruleAltList, .labeledAlt] derivation isBody
  cases found : body.phrase? .element with
  | none => simp [found]
  | some inner =>
    have mem : inner ∈ body.phrases .element := mem_of_head? found
    have tokens : inner.tokens ⊆ spec.tokens :=
      List.Subset.trans (Tree.tokens_subset_of_mem (mem_filter.mp mem).1)
        (Tree.descend_subset (fun _ _ => Tree.tokens_subset_of_mem) isBody)
    simpa [found] using each inner (isAlternative.of_mem_phrases mem) tokens

/-- The issue on a rule with left recursion. -/
def recursionIssue (g : Grammar) (config : RuleConfig) (rule : Rule) : Issue :=
  .of "E002" g config rule.range s!"Rule '{rule.name}' has direct left recursion which may cause ambiguity"
    "Eliminate left recursion" "Refactor to remove left recursion or ensure ANTLR4 handles it correctly"

theorem ambiguity_run {g : Grammar} (config : RuleConfig) (byRange : (g.parserRules.map (·.range)).Nodup) :
    ∃ issues, ambiguity.run g config = .ok issues ∧
      ∀ rule ∈ g.parserRules, recursionIssue g config rule ∈ issues ↔ isLeftRecursive rule = true := by
  refine ⟨_, rfl, fun rule isRule => ?_⟩
  have reported := @mem_map_filter_iff rule (recursionIssue g config) _ isLeftRecursive byRange (fun _ => rfl) isRule
  refine mem_append.trans (.trans (or_iff_right ?_) reported)
  -- issues on ambiguous alternatives come with another advice
  simp [recursionIssue, Issue.of]

theorem isLeftRecursive_iff {text : List Char} (faultless : (parse .grammarSpec text).errors = [])
    (isSpec : spec ∈ (parse .grammarSpec text).tree.parserSpecs) :
    isLeftRecursive (.ofParserTree spec) = true ↔ .bare (Rule.ofParserTree spec).name ∈ spec.firstReferences := by
  obtain ⟨children, stop, same, -, leaves⟩ := parseTokens_unfailed (start_proper text) faultless
  have whole : (parse .grammarSpec text).tree.tokens = Tree.tokensOf children := congrArg Tree.tokens same
  obtain ⟨derivation, tokens⟩ := parse_derivation faultless
  obtain ⟨inTree, parserRule⟩ := (Grammar.mem_parserSpecs derivation).mp isSpec
  have inFile := Tree.ruleSpecs_tokens _ inTree
  have mem : Rule.ofParserTree spec ∈ (Grammar.ofTree "" (parse .grammarSpec text).tree).parserRules := by
    rw [Grammar.parserRules_ofTree derivation]
    exact mem_map_of_mem isSpec
  obtain ⟨name, isToken, isRule, named⟩ := Grammar.rules_named derivation _ (mem_filter.mp mem).1
  have isName : name.kind.isName = true := by rw [isRule]; rfl
  have origin := Grammar.token_origin (tokens ▸ isToken) isName
  rw [named]
  refine isLeftRecursive_ofParserTree parserRule named fun inner isElement inSpec => ?_
  exact isElement.text_eq_iff (fun token inside => tokens_marked leaves token (whole ▸ inFile (inSpec inside)))
    (fun token inside => tokens_opened leaves token (whole ▸ inFile (inSpec inside))) isRule origin.marked
    (origin.name_signless isName)

/-- In a file without syntax errors, left recursion is found in a rule exactly if some alternative begins with the
name of the rule and nothing around it. So all left recursion is found only if no rule begins an alternative
with a reference to itself that has a label, arguments, options or a suffix, without having a bare one too. -/
theorem ambiguity_leftRecursion_iff (file : String) (text : List Char) (config : RuleConfig)
    (faultless : (parse .grammarSpec text).errors = []) :
    ∃ issues, ambiguity.run (Grammar.ofText file text) config = .ok issues ∧
      (Grammar.ofText file text).parserRules = (parse .grammarSpec text).tree.parserSpecs.map Rule.ofParserTree ∧
      (∀ spec ∈ (parse .grammarSpec text).tree.parserSpecs,
        recursionIssue (.ofText file text) config (.ofParserTree spec) ∈ issues ↔
          .bare (Rule.ofParserTree spec).name ∈ spec.firstReferences) ∧
      ((∀ spec ∈ (parse .grammarSpec text).tree.parserSpecs,
        recursionIssue (.ofText file text) config (.ofParserTree spec) ∈ issues ↔
          ∃ reference ∈ spec.firstReferences, reference.name = (Rule.ofParserTree spec).name) ↔
        ∀ spec ∈ (parse .grammarSpec text).tree.parserSpecs, ∀ reference ∈ spec.firstReferences,
          reference.name = (Rule.ofParserTree spec).name →
            .bare (Rule.ofParserTree spec).name ∈ spec.firstReferences) := by
  have rules := @Grammar.parserRules_ofTree file _ (parse_derivation faultless).1
  have byRange : ((Grammar.ofText file text).parserRules.map (·.range)).Nodup :=
    (Grammar.nodup_ranges faultless).sublist (filter_sublist.map _)
  obtain ⟨issues, run, found⟩ := ambiguity_run config byRange
  have reported : ∀ spec ∈ (parse .grammarSpec text).tree.parserSpecs,
      (recursionIssue (.ofText file text) config (.ofParserTree spec) ∈ issues ↔
        .bare (Rule.ofParserTree spec).name ∈ spec.firstReferences) := by
    intro spec isSpec
    rw [found _ (rules ▸ mem_map_of_mem isSpec), isLeftRecursive_iff faultless isSpec]
  refine ⟨issues, run, rules, reported, forall₂_congr fun spec isSpec => ?_⟩
  rw [reported spec isSpec]
  constructor
  · exact fun all reference member itself => all.mpr ⟨reference, member, itself⟩
  · exact fun all => ⟨fun bare => ⟨_, bare, rfl⟩, fun ⟨reference, member, itself⟩ => all reference member itself⟩

def selfReferences : List Char := "grammar G;a:a;b:x=b;c:c?;d:d[i];e:e<i>;".toList

theorem selfReferences_read : (parse .grammarSpec selfReferences).errors = [] ∧
    (parse .grammarSpec selfReferences).tree.parserSpecs.map (fun spec => spec.firstReferences) =
      [[.bare "a"], [⟨"b", true, false, false, false⟩], [⟨"c", false, false, false, true⟩],
        [⟨"d", false, true, false, false⟩], [⟨"e", false, false, true, false⟩]] ∧
    ((parse .grammarSpec selfReferences).tree.parserSpecs.map fun spec => (Rule.ofParserTree spec).name) =
      ["a", "b", "c", "d", "e"] ∧
    ((ambiguity.run (Grammar.ofText "G.g4" selfReferences) {}).toOption.map (·.map (·.message))) =
      some ["Rule 'a' has direct left recursion which may cause ambiguity"] := by
  decide +kernel

theorem ambiguity_leftRecursion_iff_selfReferences : (parse .grammarSpec selfReferences).errors = [] ∧
    ∃ issues, ambiguity.run (Grammar.ofText "G.g4" selfReferences) {} = .ok issues ∧
      ∀ spec ∈ (parse .grammarSpec selfReferences).tree.parserSpecs,
        recursionIssue (.ofText "G.g4" selfReferences) {} (.ofParserTree spec) ∈ issues ↔
          .bare (Rule.ofParserTree spec).name ∈ spec.firstReferences := by
  have faultless := selfReferences_read.1
  obtain ⟨issues, run, -, reported, -⟩ := ambiguity_leftRecursion_iff "G.g4" selfReferences {} faultless
  exact ⟨faultless, issues, run, reported⟩

/-- Only the first of the rules is reported, though each of them begins with a reference to itself. -/
theorem leftRecursion_overlooked : (parse .grammarSpec selfReferences).errors = [] ∧
    ((parse .grammarSpec selfReferences).tree.parserSpecs.map fun spec => (Rule.ofParserTree spec).name) =
      ["a", "b", "c", "d", "e"] ∧
    ((parse .grammarSpec selfReferences).tree.parserSpecs.map fun spec => spec.firstReferences.map (·.name)) =
      [["a"], ["b"], ["c"], ["d"], ["e"]] ∧
    ((ambiguity.run (Grammar.ofText "G.g4" selfReferences) {}).toOption.map (·.map (·.message))) =
      some ["Rule 'a' has direct left recursion which may cause ambiguity"] := by
  obtain ⟨faultless, references, names, messages⟩ := selfReferences_read
  have called := congrArg (List.map (List.map Reference.name)) references
  rw [map_map] at called
  exact ⟨faultless, names, called, messages⟩

end Check

end GrammarLint
